import SubleqEmu.EmitterProcessor
import SubleqEmu.TranslatorWeights

/-!
# How long emitted code is

A bound on the bytes of each instruction, and from the weights of the translator on the
bytes of an instruction of the program.
-/

namespace SubleqEmu
namespace EmitterBytes

open X86 Emitter Translator

variable {pageOff : BitVec 32}

/-! ## Instructions -/

@[simp] theorem length_e8 (v : ℕ) : (e8 v).length = 1 := rfl

@[simp] theorem length_e32 (v : BitVec 32) : (e32 v).length = 4 := length_littleEndian 4 _

@[simp] theorem length_e64 (v : Word) : (e64 v).length = 8 := length_littleEndian 8 _

theorem length_rex (w : ℕ) (r x b : X86.Reg) : (rex w r x b).length ≤ 1 := by
  simp only [rex]
  split_ifs <;> simp

theorem length_dispBytes (mod : ℕ) (disp : BitVec 32) : (dispBytes mod disp).length ≤ 4 := by
  unfold dispBytes
  split_ifs <;> simp

theorem length_memOperand (reg : ℕ) (base : X86.Reg) (disp : BitVec 32) :
    (memOperand reg base disp).length ≤ 6 := by
  have hdisp := length_dispBytes (modOf base disp) disp
  simp only [memOperand, List.length_append, length_e8]
  split_ifs <;> simp <;> omega

@[simp] theorem length_modrmReg (reg : ℕ) (rm : X86.Reg) : (modrmReg reg rm).length = 1 := rfl

theorem length_opMem (op : ℕ) (r base : X86.Reg) (disp : BitVec 32) :
    (opMem op r base disp).length ≤ 8 := by
  have hrex := length_rex 1 r 0 base
  have hmem := length_memOperand r base disp
  simp only [opMem, List.length_append, length_e8]
  omega

theorem length_movbeMem (store : Bool) (r base : X86.Reg) (disp : BitVec 32) :
    (movbeMem store r base disp).length ≤ 10 := by
  have hrex := length_rex 1 r 0 base
  have hmem := length_memOperand r base disp
  simp only [movbeMem, List.length_append, length_e8]
  omega

theorem length_rr (op : ℕ) (dst src : X86.Reg) : (rr op dst src).length ≤ 3 := by
  have hrex := length_rex 1 src 0 dst
  simp only [rr, List.length_append, length_e8, length_modrmReg]
  omega

theorem length_movImm (r : X86.Reg) (v : Word) : (movImm r v).length ≤ 10 := by
  have hlow := length_rex 0 0 0 r
  have hwide := length_rex 1 0 0 r
  unfold movImm
  split_ifs <;> simp only [List.length_append, length_e8, length_e32, length_e64,
    length_modrmReg] <;> omega

theorem length_aluImm (ext : ℕ) (r : X86.Reg) (v : BitVec 32) : (aluImm ext r v).length ≤ 7 := by
  have hrex := length_rex 1 0 0 r
  simp only [aluImm, List.length_append, length_e8, length_e32, length_modrmReg]
  omega

theorem length_negR (r : X86.Reg) : (negR r).length ≤ 3 := by
  have hrex := length_rex 1 0 0 r
  simp only [negR, List.length_append, length_e8, length_modrmReg]
  omega

theorem length_notR (r : X86.Reg) : (notR r).length ≤ 3 := by
  have hrex := length_rex 1 0 0 r
  simp only [notR, List.length_append, length_e8, length_modrmReg]
  omega

theorem length_shlRi (r : X86.Reg) (n : Byte) : (shlRi r n).length ≤ 4 := by
  have hrex := length_rex 1 0 0 r
  simp only [shlRi, List.length_append, length_e8, length_modrmReg, List.length_singleton]
  omega

theorem length_shrRi (r : X86.Reg) (n : Byte) : (shrRi r n).length ≤ 4 := by
  have hrex := length_rex 1 0 0 r
  simp only [shrRi, List.length_append, length_e8, length_modrmReg, List.length_singleton]
  omega

theorem length_bswap (r : X86.Reg) : (bswap r).length ≤ 3 := by
  have hrex := length_rex 1 0 0 r
  simp only [bswap, List.length_append, length_e8]
  omega

theorem length_movLow (r : X86.Reg) : (movLow r).length ≤ 3 := by
  have hrex := length_rex 0 r 0 r
  simp only [movLow, List.length_append, length_e8, length_modrmReg]
  omega

theorem length_btRr (base bit : X86.Reg) : (btRr base bit).length ≤ 4 := by
  have hrex := length_rex 1 bit 0 base
  simp only [btRr, List.length_append, length_e8, length_modrmReg]
  omega

theorem length_loadSib8 (r base index : X86.Reg) : (loadSib8 r base index).length ≤ 4 := by
  have hrex := length_rex 1 r index base
  simp only [loadSib8, List.length_append, length_e8]
  omega

theorem length_cmpByteZero (base index : X86.Reg) (disp : BitVec 32) :
    (cmpByteZero base index disp).length ≤ 9 := by
  have hrex := length_rex 0 0 index base
  simp only [cmpByteZero, List.length_append, length_e8, length_e32]
  omega

theorem length_testBitmap (w : Word) : (testBitmap w).length ≤ 9 := by
  have hrex := length_rex 0 0 0 r14
  have hmem := length_memOperand 0 r14 ((w >>> 3).setWidth 32)
  simp only [testBitmap, List.length_append, length_e8]
  omega

theorem length_storeImm (disp v : BitVec 32) : (storeImm disp v).length ≤ 12 := by
  have hrex := length_rex 1 0 0 r15
  have hmem := length_memOperand 0 r15 disp
  simp only [storeImm, List.length_append, length_e8, length_e32]
  omega

theorem length_jmpR (r : X86.Reg) : (jmpR r).length ≤ 3 := by
  have hrex := length_rex 0 0 0 r
  simp only [jmpR, List.length_append, length_e8, length_modrmReg]
  omega

@[simp] theorem length_jcc32 (cc : ℕ) : (jcc32 cc).length = 6 := rfl

@[simp] theorem length_jmp32 : jmp32.length = 5 := rfl

theorem length_exitTo (eip : Word) (info : BitVec 32) : (exitTo eip info).length ≤ 23 := by
  have heip := length_movImm r13 eip
  have hinfo := length_movImm rbx (info.setWidth 64)
  have hjmp := length_jmpR r12
  simp only [exitTo, List.length_append]
  omega

theorem length_leaOne (r : Machine.Reg) :
    (opMem MemOp.lea.opcode (allocRegs r) (allocRegs r) 1).length ≤ 4 := by
  revert r
  decide

/-! ## Weights -/

/-- Bytes, at most. -/
def byteWeights : Weights := ⟨12, 4, 4, 9, 6, 6⟩

theorem length_encode (i : Machine.Insn) : (encode pageOff i).length ≤ byteWeights.of i := by
  have hten : 10 ≤ byteWeights.heavy := by decide
  have hfour : 3 ≤ byteWeights.light := by decide
  cases i with
  | movImm r v => exact (length_movImm _ v).trans hten
  | andImm r v => exact (length_aluImm 4 _ v).trans (by decide : 7 ≤ byteWeights.heavy)
  | load r base disp => exact (length_opMem _ _ _ disp).trans (by decide : 8 ≤ byteWeights.heavy)
  | store r base disp => exact (length_opMem _ _ _ disp).trans (by decide : 8 ≤ byteWeights.heavy)
  | movbeLoad r base disp => exact (length_movbeMem _ _ _ disp).trans hten
  | movbeStore r base disp => exact (length_movbeMem _ _ _ disp).trans hten
  | storeImm disp v => exact length_storeImm disp v
  | mov dst src => exact (length_rr _ _ _).trans hfour
  | add dst src => exact (length_rr _ _ _).trans hfour
  | sub dst src => exact (length_rr _ _ _).trans hfour
  | or dst src => exact (length_rr _ _ _).trans hfour
  | and dst src => exact (length_rr _ _ _).trans hfour
  | test a b => exact (length_rr _ _ _).trans hfour
  | neg r => exact (length_negR _).trans hfour
  | not r => exact (length_notR _).trans hfour
  | bswap r => exact (length_bswap _).trans hfour
  | movLow r => exact (length_movLow _).trans hfour
  | leaOne r => exact length_leaOne r
  | shl r n => exact length_shlRi _ _
  | shr r n => exact length_shrRi _ _
  | testBitmap w => exact length_testBitmap w
  | cmpPage t1 => exact length_cmpByteZero _ _ _
  | jnz s => exact Nat.le_refl 6
  | jle s => exact Nat.le_refl 6
  | jmp s => exact (by decide : 5 ≤ byteWeights.branch)

theorem length_code (c : List Machine.Insn) :
    (code pageOff c).length ≤ weight byteWeights.of c := by
  induction c with
  | nil => rfl
  | cons i c ih =>
      have hi := @length_encode pageOff i
      rw [code, List.flatMap_cons, List.length_append, weight_cons]
      exact Nat.add_le_add hi ih

end EmitterBytes
end SubleqEmu
