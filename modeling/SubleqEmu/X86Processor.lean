import SubleqEmu.X86Decoder

/-!
# What x86-64 instructions do

Registers, memory and flags after an instruction that does not jump, and after the
instructions that some bytes are decoded to.
-/

namespace X86

open ByteMemory

/-! ## States -/

/-- A flag that an instruction leaves undefined is not known. -/
structure Flags where
  zf : Option Bool
  sf : Option Bool
  of : Option Bool
  cf : Option Bool
  deriving DecidableEq

structure State where
  reg : Reg → Word
  mem : Memory
  flags : Flags

def Size.bytes : Size → ℕ
  | .byte => 1
  | .dword => 4
  | .qword => 8

abbrev Size.bits : Size → ℕ
  | .byte => 8
  | .dword => 32
  | .qword => 64

/-- The number in `n` bytes of memory, the first the lowest. -/
def readLittle (m : Memory) : Word → ℕ → ℕ
  | _, 0 => 0
  | a, n + 1 => (m a).toNat + 256 * readLittle m (a + 1) n

def writeLittle (m : Memory) (a : Word) (n : ℕ) (v : Word) : Memory := fun x =>
  if (x - a).toNat < n then (v >>> (8 * (x - a).toNat)).setWidth 8 else m x

namespace State

def set (s : State) (r : Reg) (v : Word) : State := { s with reg := Function.update s.reg r v }

/-- A write to the low half of a register clears the high one. -/
def setReg (s : State) (size : Size) (r : Reg) (v : Word) : State :=
  match size with
  | .qword => s.set r v
  | .dword => s.set r ((v.setWidth 32).setWidth 64)
  | .byte => s.set r (s.reg r &&& ~~~255#64 ||| (v.setWidth 8).setWidth 64)

/-- The address of an operand; those from the next instruction are not followed. -/
def address (s : State) (a : Mem) : Option Word :=
  let index := match a.index with
    | none => 0
    | some (r, scale) => s.reg r <<< scale
  match a.base with
  | .none => some (index + a.disp)
  | .rip => none
  | .reg r => some (s.reg r + index + a.disp)

def get (s : State) (size : Size) : Operand → Option (BitVec size.bits)
  | .reg r => some ((s.reg r).setWidth size.bits)
  | .mem a => (s.address a).map fun x => BitVec.ofNat size.bits (readLittle s.mem x size.bytes)

def put (s : State) (size : Size) (v : Word) : Operand → Option State
  | .reg r => some (s.setReg size r v)
  | .mem a => (s.address a).map fun x =>
      { s with mem := writeLittle s.mem x size.bytes v }

end State

/-! ## Operations -/

section Operations

variable {n : ℕ}

def Binary.value : Binary → BitVec n → BitVec n → BitVec n
  | .add, a, b => a + b
  | .or, a, b => a ||| b
  | .and, a, b => a &&& b
  | .sub, a, b => a - b
  | .cmp, a, b => a - b
  | .test, a, b => a &&& b
  | .mov, _, b => b

def Binary.writes : Binary → Bool
  | .cmp => false
  | .test => false
  | _ => true

def resultFlags (v : BitVec n) (of cf : Bool) : Flags :=
  ⟨some (v = 0), some v.msb, some of, some cf⟩

def Binary.flags (op : Binary) (a b : BitVec n) (old : Flags) : Flags :=
  match op with
  | .mov => old
  | .add => resultFlags (a + b) (BitVec.saddOverflow a b) (BitVec.uaddOverflow a b)
  | .sub => resultFlags (a - b) (BitVec.ssubOverflow a b) (BitVec.usubOverflow a b)
  | .cmp => resultFlags (a - b) (BitVec.ssubOverflow a b) (BitVec.usubOverflow a b)
  | op => resultFlags (op.value a b) false false

/-- How far a shift goes: its count is taken modulo the width. -/
def shiftCount (n : ℕ) (k : Byte) : ℕ := k.toNat % (if n = 64 then 64 else 32)

def Unary.value : Unary → BitVec n → BitVec n
  | .not, a => ~~~a
  | .neg, a => -a
  | .shl k, a => a <<< shiftCount n k
  | .shr k, a => a >>> shiftCount n k

/-- The flags of a shift by nothing stay, and its overflow flag has a meaning for a shift
by one only. -/
def Unary.flags (op : Unary) (a : BitVec n) (old : Flags) : Flags :=
  match op with
  | .not => old
  | .neg => Binary.flags .sub 0 a old
  | .shl k =>
      let c := shiftCount n k
      if c = 0 then old
      else ⟨some (a <<< c = 0), some (a <<< c).msb, none, some (a.getLsbD (n - c))⟩
  | .shr k =>
      let c := shiftCount n k
      if c = 0 then old
      else ⟨some (a >>> c = 0), some (a >>> c).msb, none, some (a.getLsbD (c - 1))⟩

end Operations

namespace State

def binary (s : State) (op : Binary) (size : Size) (dst : Operand) (v : Word) : Option State :=
  (s.get size dst).bind fun a =>
    let b := v.setWidth size.bits
    let s := { s with flags := op.flags a b s.flags }
    if op.writes then s.put size ((op.value a b).setWidth 64) dst else some s

def unary (s : State) (op : Unary) (size : Size) (dst : Operand) : Option State :=
  (s.get size dst).bind fun a =>
    { s with flags := op.flags a s.flags }.put size ((op.value a).setWidth 64) dst

/-- Memory in the other byte order. -/
def swapped (v : Word) : Size → Word
  | .qword => ByteMemory.bswap v
  | .dword => ByteMemory.bswap v >>> 32
  | .byte => v

/-- An instruction that goes on to the next one. -/
def step (s : State) : Instr → Option State
  | .binary op size dst src => s.binary op size dst (s.reg src)
  | .binaryImm op size dst v => s.binary op size dst v
  | .unary op size dst => s.unary op size dst
  | .load size dst src => (s.get size src).map fun v => s.setReg size dst (v.setWidth 64)
  | .lea size dst a => (s.address a).map (s.setReg size dst)
  | .movbeLoad size dst a =>
      (s.get size (.mem a)).map fun v => s.setReg size dst (swapped (v.setWidth 64) size)
  | .movbeStore size a src => s.put size (swapped (s.reg src) size) (.mem a)
  | .movImm size dst v => some (s.setReg size dst v)
  | .bswap size r => some (s.setReg size r (swapped (s.reg r) size))
  | .bt size base bit =>
      match base with
      | .mem _ => none
      | .reg r =>
          let k := (s.reg bit).toNat % size.bits
          some { s with flags := ⟨s.flags.zf, none, none, some ((s.reg r).getLsbD k)⟩ }
  | .jmp _ => none
  | .jcc _ _ => none
  | .jmpTo _ => none

end State

/-- From one state to another by the instructions that the bytes are decoded to. -/
inductive Runs : List Byte → State → State → Prop
  | nil (s : State) : Runs [] s s
  | cons {bs bs' : List Byte} {i : Instr} {s s' t : State} (hdecode : decode bs = some (i, bs'))
      (hstep : s.step i = some s') (hrest : Runs bs' s' t) : Runs bs s t

namespace Runs

variable {bs bs' : List Byte} {s s' t t' : State} {i : Instr}

/-- Bytes before others that they do not run into. -/
theorem one_append (hdecode : ∀ rest, decode (bs ++ rest) = some (i, rest))
    (hstep : s.step i = some s') (hrest : Runs bs' s' t) : Runs (bs ++ bs') s t :=
  .cons (hdecode bs') hstep hrest

end Runs

/-! ## Words of memory -/

theorem readLittle_byte (m : Memory) (a : Word) (n k : ℕ) (hk : k < n) :
    readLittle m a n / 256 ^ k % 256 = (m (a + BitVec.ofNat 64 k)).toNat := by
  induction n generalizing a k with
  | zero => omega
  | succ n ih =>
      have hlt := (m a).isLt
      cases k with
      | zero =>
          rw [readLittle, pow_zero, Nat.div_one, BitVec.add_zero]
          omega
      | succ k =>
          have hdiv : ((m a).toNat + 256 * readLittle m (a + 1) n) / 256 =
              readLittle m (a + 1) n := by omega
          rw [readLittle, pow_succ', ← Nat.div_div_eq_div_mul, hdiv, ih _ _ (by omega),
            BitVec.add_assoc]
          congr 3
          bv_omega

theorem readLittle_lt (m : Memory) (a : Word) (n : ℕ) : readLittle m a n < 256 ^ n := by
  induction n generalizing a with
  | zero => simp [readLittle]
  | succ n ih =>
      have hbyte := (m a).isLt
      have hrest := ih (a + 1)
      rw [readLittle, pow_succ]
      omega

theorem byteAt_toNat (v : Word) {k : ℕ} (hk : k < 8) :
    (byteAt v k).toNat = v.toNat / 256 ^ (7 - k) % 256 := by
  rw [byteAt, BitVec.extractLsb'_toNat, Nat.shiftRight_eq_div_pow,
    show 56 - 8 * k = 8 * (7 - k) by omega, pow_mul]
  rfl

/-- Eight bytes are a word in the other byte order. -/
theorem readLittle_eight (m : Memory) (a : Word) :
    BitVec.ofNat 64 (readLittle m a 8) = ByteMemory.bswap (read m a) := by
  have hlt : readLittle m a 8 < 2 ^ 64 := readLittle_lt m a 8
  apply ext_byteAt
  intro k hk
  apply BitVec.eq_of_toNat_eq
  rw [byteAt_bswap _ hk, byteAt_read _ _ (by omega : 7 - k < 8), byteAt_toNat _ hk,
    BitVec.toNat_ofNat, Nat.mod_eq_of_lt hlt, readLittle_byte _ _ _ _ (by omega)]

theorem writeLittle_eight (m : Memory) (a v : Word) :
    writeLittle m a 8 v = write m a (ByteMemory.bswap v) := by
  funext x
  unfold writeLittle write
  split_ifs with hx
  · apply BitVec.eq_of_toNat_eq
    rw [byteAt_bswap _ hx, byteAt_toNat _ (by omega), BitVec.toNat_setWidth,
      BitVec.toNat_ushiftRight, Nat.shiftRight_eq_div_pow, pow_mul,
      show 7 - (7 - (x - a).toNat) = (x - a).toNat by omega]
    rfl
  · rfl

/-! ## Operands of 64 bits -/

section Words

variable {s : State} {r : Reg} {v x : Word} {a : Mem} {op : Binary}

theorem get_reg (s : State) (r : Reg) : s.get .qword (.reg r) = some (s.reg r) :=
  congrArg some (BitVec.setWidth_eq _)

theorem get_mem (h : s.address a = some x) :
    s.get .qword (.mem a) = some (ByteMemory.bswap (read s.mem x)) := by
  rw [State.get, h]
  exact congrArg some (readLittle_eight s.mem x)

theorem put_mem (h : s.address a = some x) :
    s.put .qword v (.mem a) = some { s with mem := write s.mem x (ByteMemory.bswap v) } := by
  rw [State.put, h]
  exact congrArg (fun m => some { s with mem := m }) (writeLittle_eight s.mem x v)

theorem binary_reg (s : State) (r : Reg) (v : Word) (hwrites : op.writes = true) :
    s.binary op .qword (.reg r) v =
      some { s.set r (op.value (s.reg r) v) with flags := op.flags (s.reg r) v s.flags } := by
  rw [State.binary, get_reg]
  simp only [Option.bind_some, hwrites, if_true, BitVec.setWidth_eq]
  rfl

theorem binary_compare (s : State) (r : Reg) (v : Word) (hwrites : op.writes = false) :
    s.binary op .qword (.reg r) v = some { s with flags := op.flags (s.reg r) v s.flags } := by
  rw [State.binary, get_reg]
  simp [hwrites]

theorem mov_mem (h : s.address a = some x) (v : Word) :
    s.binary .mov .qword (.mem a) v =
      some { s with mem := write s.mem x (ByteMemory.bswap v) } := by
  rw [State.binary, get_mem h]
  simp only [Option.bind_some, Binary.writes, if_true, Binary.flags, Binary.value,
    BitVec.setWidth_eq]
  exact put_mem h

theorem unary_reg (s : State) (op : Unary) (r : Reg) :
    s.unary op .qword (.reg r) =
      some { s.set r (op.value (s.reg r)) with flags := op.flags (s.reg r) s.flags } := by
  rw [State.unary, get_reg]
  simp only [Option.bind_some, BitVec.setWidth_eq]
  rfl

theorem load_step (h : s.address a = some x) (r : Reg) :
    s.step (.load .qword r (.mem a)) = some (s.set r (ByteMemory.bswap (read s.mem x))) := by
  rw [State.step, get_mem h]
  exact congrArg (fun w => some (s.set r w)) (BitVec.setWidth_eq _)

theorem movbeLoad_step (h : s.address a = some x) (r : Reg) :
    s.step (.movbeLoad .qword r a) = some (s.set r (read s.mem x)) := by
  rw [State.step, get_mem h, Option.map_some, State.swapped, BitVec.setWidth_eq, bswap_bswap]
  rfl

theorem movbeStore_step (h : s.address a = some x) (r : Reg) :
    s.step (.movbeStore .qword a r) = some { s with mem := write s.mem x (s.reg r) } := by
  rw [State.step, put_mem h, State.swapped, bswap_bswap]

end Words

end X86
