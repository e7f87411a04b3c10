import SubleqEmu.Emitter
import SubleqEmu.SubleqModel

/-!
# The machine

The instructions that the translator emits, on the registers it allocates.  Of the
other registers `r15` stays at `BIAS`, and `r14` at the maps, which are read only by
the tests for translated code.
-/

namespace SubleqEmu
namespace Machine

open ByteMemory Subleq Emitter

/-- RAX, RCX, RDX, RBX, RSI, RDI, R8, R9, R10, R11, R13, by their place in `alloc_regs`. -/
abbrev Reg := Fin 11

def bias : Word := 0x80000000

inductive Base
  | r15
  | reg (r : Reg)
  deriving DecidableEq

/-- How the value of a word is known: not at all, as a register, a constant, or a
register's negation. -/
inductive CVal
  | none
  | reg (r : Reg)
  | const (v : Word)
  | neg (r : Reg)
  deriving DecidableEq

/-- A store held back, as it stood where a stub leaves; without a value there is none. -/
structure Pending where
  val : CVal
  addr : Word
  deriving DecidableEq

structure Stub where
  dyn : Bool
  idx : ℕ
  target : Word
  creg : Option Reg
  pend : Pending
  deriving DecidableEq

/-- The registers of a check that goes on out of line. -/
structure Precise where
  rb : Reg
  t1 : Reg
  t2 : Reg
  deriving DecidableEq

structure Smc where
  idx : ℕ
  pend : Pending
  precise : Option Precise
  deriving DecidableEq

inductive Exit
  | smc (s : Smc)
  | stub (s : Stub)
  deriving DecidableEq

inductive Insn
  | movImm (r : Reg) (v : Word)
  | mov (dst src : Reg)
  | add (dst src : Reg)
  | sub (dst src : Reg)
  | or (dst src : Reg)
  | and (dst src : Reg)
  | neg (r : Reg)
  | not (r : Reg)
  /-- `lea r, [r + 1]` -/
  | leaOne (r : Reg)
  | test (a b : Reg)
  | shl (r : Reg) (n : ℕ)
  | shr (r : Reg) (n : ℕ)
  | bswap (r : Reg)
  | andImm (r : Reg) (v : BitVec 32)
  /-- `mov r32, r32` -/
  | movLow (r : Reg)
  | load (r : Reg) (base : Base) (disp : BitVec 32)
  | movbeLoad (r : Reg) (base : Base) (disp : BitVec 32)
  | store (r : Reg) (base : Base) (disp : BitVec 32)
  | movbeStore (r : Reg) (base : Base) (disp : BitVec 32)
  | storeImm (disp v : BitVec 32)
  /-- `test byte [r14 + w / 8], 1 << (w % 8)` -/
  | testBitmap (w : Word)
  /-- `cmp byte [r14 + t1 + page_off], 0` -/
  | cmpPage (t1 : Reg)
  /-- `jnz` to a check's stub -/
  | jnz (s : Smc)
  | jle (s : Stub)
  | jmp (s : Stub)
  deriving DecidableEq

/-- The flags that the jumps look at. -/
structure Flags where
  zf : Bool
  sf : Bool
  of : Bool
  deriving DecidableEq

/-- The flags are gone after an instruction that leaves one of them undefined.  Memory is
what the stores so far, of words in native order, have made of an initial one. -/
structure State where
  reg : Reg → Word
  flags : Option Flags
  init : Memory
  stores : List (Word × Word)

def applyStores (m : Memory) (stores : List (Word × Word)) : Memory :=
  stores.foldl (fun m s => write m s.1 s.2) m

/-- The maps, as they are while a block runs. -/
structure Maps where
  /-- `static_map` by its qwords -/
  qword : Word → Word
  page : Word → Bool

def Maps.static (maps : Maps) (w : Word) : Bool :=
  (maps.qword (w >>> 6)).getLsbD (w.toNat % 64)

namespace State

def mem (M : State) : Memory := applyStores M.init M.stores

def set (M : State) (r : Reg) (v : Word) : State := { M with reg := Function.update M.reg r v }

def setFlags (M : State) (f : Option Flags) : State := { M with flags := f }

def address (M : State) (base : Base) (disp : BitVec 32) : Word :=
  match base with
  | .r15 => bias + disp.signExtend 64
  | .reg r => M.reg r + disp.signExtend 64

/-- Memory after a store of `v` in native order. -/
def put (M : State) (a v : Word) : State :=
  { M with stores := M.stores ++ [(a, v)] }

end State

/-- The flags of a result without overflow. -/
def logicFlags (v : Word) : Flags := ⟨v = 0, v.msb, false⟩

def subFlags (a b : Word) : Flags := ⟨a - b = 0, (a - b).msb, BitVec.ssubOverflow a b⟩

def addFlags (a b : Word) : Flags := ⟨a + b = 0, (a + b).msb, BitVec.saddOverflow a b⟩

/-- The condition of `jle`. -/
def Flags.le (f : Flags) : Bool := f.zf || f.sf != f.of

/-- The out-of-line check: the words of the store one after the other. -/
def checkWords (maps : Maps) (s : Smc) (q : Precise) (M : State) : Outcome State Exit :=
  let w := M.reg q.rb >>> 3
  let M₁ := ((M.set q.t1 w).set q.t2 (maps.qword (w >>> 6))).setFlags none
  if maps.static w then .exit (.smc s) M₁
  else
    let w' := (M₁.reg q.rb + 7) >>> 3
    let M₂ := ((M₁.set q.t1 w').set q.t2 (maps.qword (w' >>> 6))).setFlags none
    if maps.static w' then .exit (.smc s) M₂ else .run M₂

def step (maps : Maps) : Insn → State → Outcome State Exit
  | .movImm r v, M => .run (M.set r v)
  | .mov dst src, M => .run (M.set dst (M.reg src))
  | .add dst src, M =>
      .run ((M.set dst (M.reg dst + M.reg src)).setFlags (addFlags (M.reg dst) (M.reg src)))
  | .sub dst src, M =>
      .run ((M.set dst (M.reg dst - M.reg src)).setFlags (subFlags (M.reg dst) (M.reg src)))
  | .or dst src, M =>
      let v := M.reg dst ||| M.reg src
      .run ((M.set dst v).setFlags (logicFlags v))
  | .and dst src, M =>
      let v := M.reg dst &&& M.reg src
      .run ((M.set dst v).setFlags (logicFlags v))
  | .neg r, M => .run ((M.set r (-M.reg r)).setFlags (subFlags 0 (M.reg r)))
  | .not r, M => .run (M.set r (~~~M.reg r))
  | .leaOne r, M => .run (M.set r (M.reg r + 1))
  | .test a b, M => .run (M.setFlags (logicFlags (M.reg a &&& M.reg b)))
  | .shl r n, M => .run ((M.set r (M.reg r <<< n)).setFlags none)
  | .shr r n, M => .run ((M.set r (M.reg r >>> n)).setFlags none)
  | .bswap r, M => .run (M.set r (ByteMemory.bswap (M.reg r)))
  | .andImm r v, M =>
      let v := M.reg r &&& v.signExtend 64
      .run ((M.set r v).setFlags (logicFlags v))
  | .movLow r, M => .run (M.set r ((M.reg r).setWidth 32 |>.setWidth 64))
  | .load r base disp, M =>
      .run (M.set r (ByteMemory.bswap (read M.mem (M.address base disp))))
  | .movbeLoad r base disp, M => .run (M.set r (read M.mem (M.address base disp)))
  | .store r base disp, M => .run (M.put (M.address base disp) (ByteMemory.bswap (M.reg r)))
  | .movbeStore r base disp, M => .run (M.put (M.address base disp) (M.reg r))
  | .storeImm disp v, M =>
      .run (M.put (M.address .r15 disp) (ByteMemory.bswap (v.signExtend 64)))
  | .testBitmap w, M =>
      .run (M.setFlags (some ⟨!maps.static w, maps.static w && w.toNat % 8 == 7, false⟩))
  | .cmpPage t1, M => .run (M.setFlags (some ⟨!maps.page (M.reg t1), false, false⟩))
  | .jnz s, M =>
      match M.flags with
      | none => .stuck
      | some f =>
          if f.zf then .run M
          else
            match s.precise with
            | none => .exit (.smc s) M
            | some q => checkWords maps s q M
  | .jle s, M =>
      match M.flags with
      | none => .stuck
      | some f => if f.le then .exit (.stub s) M else .run M
  | .jmp s, M => .exit (.stub s) M

/-! ## Comparisons -/

theorem le_subFlags (a b : Word) : (subFlags a b).le = a.sle b := by
  have hzero : (a - b = 0) ↔ a.toInt = b.toInt := by
    rw [BitVec.toInt_inj]
    constructor <;> intro h
    · bv_omega
    · rw [h]
      exact sub_self b
  have ha := BitVec.le_two_mul_toInt (x := a)
  have ha' := BitVec.two_mul_toInt_lt (x := a)
  have hb := BitVec.le_two_mul_toInt (x := b)
  have hb' := BitVec.two_mul_toInt_lt (x := b)
  have hsub : (a - b).toInt = a.toInt - b.toInt ∨ (a - b).toInt = a.toInt - b.toInt + 2 ^ 64 ∨
      (a - b).toInt = a.toInt - b.toInt - 2 ^ 64 := by
    rw [BitVec.toInt_sub, Int.bmod_def]
    split_ifs <;> omega
  have hd := BitVec.le_two_mul_toInt (x := a - b)
  have hd' := BitVec.two_mul_toInt_lt (x := a - b)
  have hover : BitVec.ssubOverflow a b =
      decide (2 ^ 63 ≤ a.toInt - b.toInt ∨ a.toInt - b.toInt < -2 ^ 63) := by
    rw [BitVec.ssubOverflow, Bool.decide_or]
  simp only [subFlags, Flags.le, hzero, BitVec.msb_eq_toInt, hover, BitVec.sle_eq_decide]
  rw [Bool.eq_iff_iff]
  simp only [Bool.or_eq_true, decide_eq_true_eq, bne_iff_ne, ne_eq, decide_eq_decide]
  omega

theorem le_logicFlags (a : Word) : (logicFlags a).le = a.sle 0 := by
  rw [Bool.eq_iff_iff, BitVec.sle_eq_decide, decide_eq_true_eq]
  have hzero : a = 0 ↔ a.toInt = 0 := by
    rw [← BitVec.toInt_inj]
    rfl
  simp only [logicFlags, Flags.le, Bool.or_eq_true, decide_eq_true_eq, hzero, bne_iff_ne, ne_eq,
    BitVec.msb_eq_toInt]
  rw [show (0 : Word).toInt = 0 by rfl]
  simp
  omega

end Machine
end SubleqEmu
