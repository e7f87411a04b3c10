import SubleqEmu.ByteMemory
import Mathlib.Data.Nat.Bits

/-!
# Decoding x86-64 instructions

The integer instructions on registers and memory, without those of 16 bits: the REX
prefix, opcodes of one, two and three bytes, ModRM and SIB, displacements, immediates.
-/

namespace X86

abbrev Byte := BitVec 8
abbrev Word := BitVec 64

/-- rax, rcx, rdx, rbx, rsp, rbp, rsi, rdi, r8, ..., r15 -/
abbrev Reg := Fin 16

theorem neZero_sixteen : NeZero 16 := ⟨by decide⟩

attribute [local instance] neZero_sixteen

/-! ## Instructions -/

inductive Size
  | byte
  | dword
  | qword
  deriving DecidableEq

inductive Base
  | none
  /-- the address of the next instruction -/
  | rip
  | reg (r : Reg)
  deriving DecidableEq

/-- `base + index * 2 ^ scale + disp` -/
structure Mem where
  base : Base
  index : Option (Reg × ℕ)
  disp : Word
  deriving DecidableEq

inductive Operand
  | reg (r : Reg)
  | mem (a : Mem)
  deriving DecidableEq

inductive Binary
  | add
  | or
  | and
  | sub
  | cmp
  | test
  | mov
  deriving DecidableEq

inductive Unary
  | not
  | neg
  | shl (n : Byte)
  | shr (n : Byte)
  deriving DecidableEq

inductive Instr
  | binary (op : Binary) (size : Size) (dst : Operand) (src : Reg)
  | binaryImm (op : Binary) (size : Size) (dst : Operand) (v : Word)
  | unary (op : Unary) (size : Size) (dst : Operand)
  | load (size : Size) (dst : Reg) (src : Operand)
  | lea (size : Size) (dst : Reg) (a : Mem)
  | movbeLoad (size : Size) (dst : Reg) (a : Mem)
  | movbeStore (size : Size) (a : Mem) (src : Reg)
  | movImm (size : Size) (dst : Reg) (v : Word)
  | bswap (size : Size) (r : Reg)
  | bt (size : Size) (base : Operand) (bit : Reg)
  | jmp (disp : Word)
  | jcc (cond : ℕ) (disp : Word)
  | jmpTo (target : Operand)
  deriving DecidableEq

/-! ## Numbers -/

def littleEndian : ℕ → ℕ → List Byte
  | 0, _ => []
  | n + 1, v => BitVec.ofNat 8 v :: littleEndian n (v / 256)

def takeNumber : ℕ → List Byte → Option (ℕ × List Byte)
  | 0, bs => some (0, bs)
  | _ + 1, [] => none
  | n + 1, b :: bs => (takeNumber n bs).map fun r => (b.toNat + 256 * r.1, r.2)

@[simp] theorem length_littleEndian (n v : ℕ) : (littleEndian n v).length = n := by
  induction n generalizing v with
  | zero => rfl
  | succ n ih => simp [littleEndian, ih]

theorem takeNumber_littleEndian (n v : ℕ) (bs : List Byte) :
    takeNumber n (littleEndian n v ++ bs) = some (v % 256 ^ n, bs) := by
  induction n generalizing v with
  | zero => simp [takeNumber, littleEndian, Nat.mod_one]
  | succ n ih =>
      simp only [littleEndian, List.cons_append, takeNumber, ih, Option.map_some]
      rw [pow_succ, Nat.mul_comm (256 ^ n), Nat.mod_mul, BitVec.toNat_ofNat]

/-- A sign-extended immediate or displacement. -/
def takeSigned (n : ℕ) (bs : List Byte) : Option (Word × List Byte) :=
  (takeNumber n bs).map fun r => ((BitVec.ofNat (8 * n) r.1).signExtend 64, r.2)

def takeUnsigned (n : ℕ) (bs : List Byte) : Option (Word × List Byte) :=
  (takeNumber n bs).map fun r => (BitVec.ofNat 64 r.1, r.2)

theorem takeSigned_littleEndian (n : ℕ) (v : BitVec (8 * n)) (bs : List Byte) :
    takeSigned n (littleEndian n v.toNat ++ bs) = some (v.signExtend 64, bs) := by
  have hlt : v.toNat < 256 ^ n := by
    rw [show 256 = 2 ^ 8 by rfl, ← pow_mul]
    exact v.isLt
  rw [takeSigned, takeNumber_littleEndian, Option.map_some, Nat.mod_eq_of_lt hlt,
    BitVec.ofNat_toNat, BitVec.setWidth_eq]

theorem takeUnsigned_littleEndian {n v : ℕ} (hv : v < 256 ^ n) (bs : List Byte) :
    takeUnsigned n (littleEndian n v ++ bs) = some (BitVec.ofNat 64 v, bs) := by
  rw [takeUnsigned, takeNumber_littleEndian, Option.map_some, Nat.mod_eq_of_lt hv]

/-! ## Prefix and operands -/

structure Rex where
  w : Bool
  r : Bool
  x : Bool
  b : Bool
  deriving DecidableEq

def takeRex : List Byte → Rex × List Byte
  | [] => (⟨false, false, false, false⟩, [])
  | b :: bs =>
      if b.toNat / 16 = 4 then (⟨b.getLsbD 3, b.getLsbD 2, b.getLsbD 1, b.getLsbD 0⟩, bs)
      else (⟨false, false, false, false⟩, b :: bs)

/-- Three bits of a register's number with the one from the prefix. -/
def number (high : Bool) (low : ℕ) : Reg := Fin.ofNat 16 (low + if high then 8 else 0)

/-- Two bits, three bits, three bits: mod, reg, rm or scale, index, base. -/
structure Fields where
  high : ℕ
  mid : ℕ
  low : ℕ
  deriving DecidableEq

def fields (b : Byte) : Fields := ⟨b.toNat / 64, b.toNat / 8 % 8, b.toNat % 8⟩

def takeDisp (mod : ℕ) (bs : List Byte) : Option (Word × List Byte) :=
  if mod = 0 then some (0, bs) else takeSigned (if mod = 1 then 1 else 4) bs

/-- The index of a SIB byte; the stack pointer's number stands for none. -/
def indexOf (rex : Rex) (sib : Fields) : Option (Reg × ℕ) :=
  if number rex.x sib.mid = 4 then none else some (number rex.x sib.mid, sib.high)

def takeSib (rex : Rex) (mod : ℕ) : List Byte → Option (Mem × List Byte)
  | [] => none
  | b :: bs =>
      let sib := fields b
      if sib.low = 5 ∧ mod = 0 then
        (takeSigned 4 bs).map fun r => (⟨.none, indexOf rex sib, r.1⟩, r.2)
      else
        (takeDisp mod bs).map fun r =>
          (⟨.reg (number rex.b sib.low), indexOf rex sib, r.1⟩, r.2)

def takeMem (rex : Rex) (modrm : Fields) (bs : List Byte) : Option (Mem × List Byte) :=
  if modrm.low = 4 then takeSib rex modrm.high bs
  else if modrm.low = 5 ∧ modrm.high = 0 then
    (takeSigned 4 bs).map fun r => (⟨.rip, none, r.1⟩, r.2)
  else
    (takeDisp modrm.high bs).map fun r => (⟨.reg (number rex.b modrm.low), none, r.1⟩, r.2)

/-- The fields of a ModRM byte with its operand; the middle one is a register or a part
of the opcode. -/
structure ModRM where
  ext : ℕ
  reg : Reg
  rm : Operand

def takeModRM (rex : Rex) : List Byte → Option (ModRM × List Byte)
  | [] => none
  | b :: bs =>
      let modrm := fields b
      let reg := number rex.r modrm.mid
      if modrm.high = 3 then some (⟨modrm.mid, reg, .reg (number rex.b modrm.low)⟩, bs)
      else (takeMem rex modrm bs).map fun r => (⟨modrm.mid, reg, .mem r.1⟩, r.2)

/-! ## Opcodes -/

def Rex.size (rex : Rex) : Size := if rex.w then .qword else .dword

variable (rex : Rex)

def decodeBinary (op : Binary) (bs : List Byte) : Option (Instr × List Byte) :=
  (takeModRM rex bs).map fun r => (.binary op rex.size r.1.rm r.1.reg, r.2)

/-- Opcodes with an operand in memory only. -/
def decodeMem (f : Reg → Mem → Instr) (bs : List Byte) : Option (Instr × List Byte) :=
  (takeModRM rex bs).bind fun r =>
    match r.1.rm with
    | .mem a => some (f r.1.reg a, r.2)
    | .reg _ => none

/-- An immediate after the operand. -/
def decodeImm (op : ℕ → Option Binary) (size : Size) (n : ℕ) (bs : List Byte) :
    Option (Instr × List Byte) :=
  (takeModRM rex bs).bind fun r =>
    (op r.1.ext).bind fun op =>
      (takeSigned n r.2).map fun v => (.binaryImm op size r.1.rm v.1, v.2)

def group1 : ℕ → Option Binary
  | 0 => some .add
  | 1 => some .or
  | 4 => some .and
  | 5 => some .sub
  | 7 => some .cmp
  | _ => none

def only (op : Binary) : ℕ → Option Binary
  | 0 => some op
  | _ => none

/-- Of operands of a byte only those in memory, as a prefix changes the registers' names. -/
def decodeByte (op : ℕ → Option Binary) (bs : List Byte) : Option (Instr × List Byte) :=
  (takeModRM rex bs).bind fun r =>
    match r.1.rm with
    | .reg _ => none
    | .mem _ => decodeImm rex op .byte 1 bs

def decodeShift (bs : List Byte) : Option (Instr × List Byte) :=
  (takeModRM rex bs).bind fun r =>
    match r.1.ext, r.2 with
    | 4, n :: bs => some (.unary (.shl n) rex.size r.1.rm, bs)
    | 5, n :: bs => some (.unary (.shr n) rex.size r.1.rm, bs)
    | _, _ => none

def decodeGroup3 (bs : List Byte) : Option (Instr × List Byte) :=
  (takeModRM rex bs).bind fun r =>
    match r.1.ext with
    | 0 => decodeImm rex (only .test) rex.size 4 bs
    | 2 => some (.unary .not rex.size r.1.rm, r.2)
    | 3 => some (.unary .neg rex.size r.1.rm, r.2)
    | _ => none

def decodeGroup5 (bs : List Byte) : Option (Instr × List Byte) :=
  (takeModRM rex bs).bind fun r =>
    match r.1.ext with
    | 4 => some (.jmpTo r.1.rm, r.2)
    | _ => none

/-- The opcode has the register; with a prefix for 64 bits the immediate has as many. -/
def decodeMovImm (low : ℕ) (bs : List Byte) : Option (Instr × List Byte) :=
  (takeUnsigned (if rex.w then 8 else 4) bs).map fun r =>
    (.movImm rex.size (number rex.b low) r.1, r.2)

/-- Opcodes after `0f 38`. -/
def decodeThree : ℕ → List Byte → Option (Instr × List Byte)
  | 0xf0, bs => decodeMem rex (.movbeLoad rex.size) bs
  | 0xf1, bs => decodeMem rex (fun r a => .movbeStore rex.size a r) bs
  | _, _ => none

/-- Opcodes after `0f`. -/
def decodeTwo (op : ℕ) (bs : List Byte) : Option (Instr × List Byte) :=
  if op / 16 = 8 then (takeSigned 4 bs).map fun r => (.jcc (op % 16) r.1, r.2)
  else if op / 8 = 0x19 then some (.bswap rex.size (number rex.b (op % 8)), bs)
  else if op = 0xa3 then
    (takeModRM rex bs).map fun r => (.bt rex.size r.1.rm r.1.reg, r.2)
  else
    match op, bs with
    | 0x38, b :: bs => decodeThree rex b.toNat bs
    | _, _ => none

def decodeOne (op : ℕ) (bs : List Byte) : Option (Instr × List Byte) :=
  if op / 8 = 0x17 then decodeMovImm rex (op % 8) bs
  else
    match op with
    | 0x01 => decodeBinary rex .add bs
    | 0x09 => decodeBinary rex .or bs
    | 0x21 => decodeBinary rex .and bs
    | 0x29 => decodeBinary rex .sub bs
    | 0x39 => decodeBinary rex .cmp bs
    | 0x85 => decodeBinary rex .test bs
    | 0x89 => decodeBinary rex .mov bs
    | 0x8b => (takeModRM rex bs).map fun r => (.load rex.size r.1.reg r.1.rm, r.2)
    | 0x8d => decodeMem rex (.lea rex.size) bs
    | 0x80 => decodeByte rex group1 bs
    | 0x81 => decodeImm rex group1 rex.size 4 bs
    | 0xc1 => decodeShift rex bs
    | 0xc7 => decodeImm rex (only .mov) rex.size 4 bs
    | 0xe9 => (takeSigned 4 bs).map fun r => (.jmp r.1, r.2)
    | 0xf6 => decodeByte rex (only .test) bs
    | 0xf7 => decodeGroup3 rex bs
    | 0xff => decodeGroup5 rex bs
    | _ => none

def decodeEscaped : List Byte → Option (Instr × List Byte)
  | [] => none
  | op :: bs => decodeTwo rex op.toNat bs

/-- The first instruction, and the bytes after it. -/
def decode (bs : List Byte) : Option (Instr × List Byte) :=
  let p := takeRex bs
  match p.2 with
  | [] => none
  | op :: bs => if op.toNat = 0x0f then decodeEscaped p.1 bs else decodeOne p.1 op.toNat bs

section Immediates

variable {rex} {op : ℕ → Option Binary} {o : Binary} {size : Size} {n : ℕ} {m : ModRM}
  {bs bs' bs'' : List Byte} {v : Word}

theorem decodeImm_of (hrm : takeModRM rex bs = some (m, bs')) (hop : op m.ext = some o)
    (himm : takeSigned n bs' = some (v, bs'')) :
    decodeImm rex op size n bs = some (.binaryImm o size m.rm v, bs'') := by
  rw [decodeImm, hrm]
  simp only [Option.bind_some, hop, himm, Option.map_some]

theorem decodeByte_of {a : Mem} (hrm : takeModRM rex bs = some (m, bs')) (hmem : m.rm = .mem a)
    (hop : op m.ext = some o) (himm : takeSigned 1 bs' = some (v, bs'')) :
    decodeByte rex op bs = some (.binaryImm o .byte m.rm v, bs'') := by
  rw [decodeByte, hrm]
  simp only [Option.bind_some, hmem]
  rw [← hmem]
  exact decodeImm_of hrm hop himm

end Immediates

end X86
