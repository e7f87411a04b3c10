import SubleqEmu.EmitterDecoding
import SubleqEmu.X86Processor

/-!
# The machine on the processor

The machine's instructions as the emitter's bytes, and that the processor does with these
what the machine does.
-/

namespace SubleqEmu
namespace EmitterBytes

open X86 Emitter ByteMemory

/-! ## Encodings -/

def baseReg : Machine.Base → X86.Reg
  | .r15 => r15
  | .reg r => allocRegs r

variable {pageOff : BitVec 32}

/-- The request behind an instruction of the machine; the jumps of the translator go to
its stubs. -/
def request (pageOff : BitVec 32) : Machine.Insn → Option Request
  | .movImm r v => some (.movImm (allocRegs r) v)
  | .mov dst src => some (.movRr (allocRegs dst) (allocRegs src))
  | .add dst src => some (.addRr (allocRegs dst) (allocRegs src))
  | .sub dst src => some (.subRr (allocRegs dst) (allocRegs src))
  | .or dst src => some (.orRr (allocRegs dst) (allocRegs src))
  | .and dst src => some (.andRr (allocRegs dst) (allocRegs src))
  | .neg r => some (.negR (allocRegs r))
  | .not r => some (.notR (allocRegs r))
  | .leaOne r => some (.opMem .lea (allocRegs r) (allocRegs r) 1)
  | .test a b => some (.testRr (allocRegs a) (allocRegs b))
  | .shl r n => some (.shlRi (allocRegs r) (BitVec.ofNat 8 n))
  | .shr r n => some (.shrRi (allocRegs r) (BitVec.ofNat 8 n))
  | .bswap r => some (.bswap (allocRegs r))
  | .andImm r v => some (.aluImm 4 (allocRegs r) v)
  | .movLow r => some (.movLow (allocRegs r))
  | .load r base disp => some (.opMem .load (allocRegs r) (baseReg base) disp)
  | .movbeLoad r base disp => some (.movbeMem false (allocRegs r) (baseReg base) disp)
  | .store r base disp => some (.opMem .store (allocRegs r) (baseReg base) disp)
  | .movbeStore r base disp => some (.movbeMem true (allocRegs r) (baseReg base) disp)
  | .storeImm disp v => some (.storeImm disp v)
  | .testBitmap w => some (.testBitmap w)
  | .cmpPage t1 => some (.cmpByteZero r14 (allocRegs t1) pageOff)
  | .jnz _ => none
  | .jle _ => none
  | .jmp _ => none

/-- The bytes emitted, jumps not patched yet. -/
def encode (pageOff : BitVec 32) (i : Machine.Insn) : List Byte :=
  match request pageOff i, i with
  | some q, _ => q.bytes
  | none, .jmp _ => jmp32
  | none, .jle _ => jcc32 0xe
  | none, _ => jcc32 0x5

def code (pageOff : BitVec 32) (is : List Machine.Insn) : List Byte :=
  is.flatMap (encode pageOff)

/-- The instructions on registers and Dawn's memory. -/
def Straight : Machine.Insn → Prop
  | .shl _ n => n < 64
  | .shr _ n => n < 64
  | .testBitmap _ => False
  | .cmpPage _ => False
  | .jnz _ => False
  | .jle _ => False
  | .jmp _ => False
  | _ => True

/-! ## Agreement -/

theorem allocRegs_injective : Function.Injective allocRegs := by
  decide

theorem allocRegs_ne : ∀ r : Machine.Reg, allocRegs r ≠ rsp ∧ allocRegs r ≠ r12 ∧
    allocRegs r ≠ r14 ∧ allocRegs r ≠ r15 := by
  decide

/-- The processor has the machine's registers, memory and flags. -/
structure Agrees (M : Machine.State) (X : X86.State) : Prop where
  reg : ∀ r, X.reg (allocRegs r) = M.reg r
  r15 : X.reg r15 = Machine.bias
  mem : X.mem = M.mem
  flags : ∀ f, M.flags = some f →
    X.flags.zf = some f.zf ∧ X.flags.sf = some f.sf ∧ X.flags.of = some f.of

/-- The registers that are not allocated stay. -/
def Spares (X X' : X86.State) : Prop := ∀ r, (∀ s, r ≠ allocRegs s) → X'.reg r = X.reg r

variable {M M' : Machine.State} {X X' : X86.State} {r : Machine.Reg} {v : Word}

namespace Agrees

theorem set (h : Agrees M X) (r : Machine.Reg) (v : Word) :
    Agrees (M.set r v) (X.set (allocRegs r) v) where
  reg s := by
    by_cases hs : s = r
    · subst hs
      simp [State.set, Machine.State.set]
    · have hne : allocRegs s ≠ allocRegs r := fun h => hs (allocRegs_injective h)
      simp [State.set, Machine.State.set, hs, hne, h.reg s]
  r15 := by
    have hne := (allocRegs_ne r).2.2.2
    simp [State.set, hne.symm, h.r15]
  mem := h.mem
  flags := h.flags

theorem setFlags (h : Agrees M X) {f : Option Machine.Flags} {fl : X86.Flags}
    (hf : ∀ g, f = some g → fl.zf = some g.zf ∧ fl.sf = some g.sf ∧ fl.of = some g.of) :
    Agrees (M.setFlags f) { X with flags := fl } where
  reg := h.reg
  r15 := h.r15
  mem := h.mem
  flags := hf

theorem put (h : Agrees M X) (a v : Word) :
    Agrees (M.put a v) { X with mem := ByteMemory.write X.mem a v } where
  reg := h.reg
  r15 := h.r15
  mem := by
    show ByteMemory.write X.mem a v = Machine.applyStores M.init (M.stores ++ [(a, v)])
    rw [Machine.applyStores, List.foldl_append, h.mem]
    rfl
  flags := h.flags

theorem base (h : Agrees M X) (base : Machine.Base) (disp : BitVec 32) :
    X.address (atDisp (baseReg base) disp) = some (M.address base disp) := by
  cases base with
  | r15 => simp [State.address, atDisp, baseReg, h.r15, Machine.State.address]
  | reg r => simp [State.address, atDisp, baseReg, h.reg r, Machine.State.address]

end Agrees

theorem Spares.refl (X : X86.State) : Spares X X := fun _ _ => rfl

theorem Spares.trans {X'' : X86.State} (h : Spares X X') (h' : Spares X' X'') : Spares X X'' :=
  fun r hr => (h' r hr).trans (h r hr)

theorem Spares.set (X : X86.State) (r : Machine.Reg) (v : Word) :
    Spares X (X.set (allocRegs r) v) := by
  intro s hs
  simp [State.set, hs r]

/-! ## Steps -/

/-- The processor goes on with what the machine does. -/
def Follows (M' : Machine.State) (X : X86.State) (i : Instr) : Prop :=
  ∃ X', X.step i = some X' ∧ Agrees M' X' ∧ Spares X X'

/-- An instruction that gives a register a value, and the flags. -/
theorem follows_set (h : Agrees M X) {i : Instr} {f : Option Machine.Flags} {fl : X86.Flags}
    (hstep : X.step i = some { X.set (allocRegs r) v with flags := fl })
    (hf : ∀ g, f = some g → fl.zf = some g.zf ∧ fl.sf = some g.sf ∧ fl.of = some g.of) :
    Follows ((M.set r v).setFlags f) X i :=
  ⟨_, hstep, (h.set r v).setFlags hf, Spares.set X r v⟩

theorem follows_set_only (h : Agrees M X) {i : Instr}
    (hstep : X.step i = some (X.set (allocRegs r) v)) : Follows (M.set r v) X i :=
  ⟨_, hstep, h.set r v, Spares.set X r v⟩

theorem logicFlags_known {w : Word} {g : Machine.Flags}
    (hg : some (Machine.logicFlags w) = some g) :
    (resultFlags w false false).zf = some g.zf ∧ (resultFlags w false false).sf = some g.sf ∧
      (resultFlags w false false).of = some g.of := by
  cases hg
  exact ⟨rfl, rfl, rfl⟩

/-- Whichever encoding it has, the register gets the value and the rest stays. -/
theorem movImm_step (X : X86.State) (r : X86.Reg) (v : Word) :
    X.step (Request.movImm r v).meaning = some (X.set r v) := by
  simp only [Request.meaning]
  split_ifs with hshort hsigned
  · have hv : (v.setWidth 32).setWidth 64 = v := by bv_omega
    exact congrArg (fun w => some (X.set r w)) hv
  · exact binary_reg X r v rfl
  · rfl

theorem storeImm_step (h : X.reg r15 = Machine.bias) (disp v : BitVec 32) :
    X.step (Request.storeImm disp v).meaning = some
      { X with mem := ByteMemory.write X.mem (Machine.bias + disp.signExtend 64)
                        (ByteMemory.bswap (v.signExtend 64)) } := by
  apply mov_mem
  simp [State.address, atDisp, h]

theorem leaOne_step (X : X86.State) (r : X86.Reg) :
    X.step (Request.opMem .lea r r 1).meaning = some (X.set r (X.reg r + 1)) := by
  have hone : (1#32).signExtend 64 = 1 := by decide
  simp [Request.meaning, State.step, State.address, atDisp, State.setReg, hone]

theorem movLow_step (X : X86.State) (r : X86.Reg) :
    X.step (Request.movLow r).meaning =
      some (X.set r (((X.reg r).setWidth 32).setWidth 64)) := by
  have hlow : (((X.reg r).setWidth 32).setWidth 64).setWidth 32 = (X.reg r).setWidth 32 := by
    bv_omega
  simp only [Request.meaning, State.step, State.binary, State.get, Option.bind_some,
    Binary.writes, if_true, Binary.value, Binary.flags, State.put, State.setReg]
  rw [hlow]

theorem shiftCount_eq {n : ℕ} (h : n < 64) : shiftCount 64 (BitVec.ofNat 8 n) = n := by
  rw [shiftCount, if_pos rfl, BitVec.toNat_ofNat]
  omega

/-- Each instruction by what it does to a register, memory or the flags. -/
theorem follows {maps : Machine.Maps} {i : Machine.Insn} {q : Request} (h : Agrees M X)
    (hi : Straight i) (hq : request pageOff i = some q)
    (hstep : Machine.step maps i M = .run M') : Follows M' X q.meaning := by
  cases i with
  | movImm r v =>
      cases hq
      cases hstep
      exact follows_set_only h (movImm_step X (allocRegs r) v)
  | mov dst src =>
      cases hq
      cases hstep
      apply follows_set_only h
      rw [← h.reg src]
      exact binary_reg X (allocRegs dst) _ rfl
  | add dst src =>
      cases hq
      cases hstep
      rw [← h.reg src, ← h.reg dst]
      refine follows_set h (binary_reg X (allocRegs dst) _ rfl) ?_
      rintro _ ⟨⟩
      exact ⟨rfl, rfl, rfl⟩
  | sub dst src =>
      cases hq
      cases hstep
      rw [← h.reg src, ← h.reg dst]
      refine follows_set h (binary_reg X (allocRegs dst) _ rfl) ?_
      rintro _ ⟨⟩
      exact ⟨rfl, rfl, rfl⟩
  | or dst src =>
      cases hq
      cases hstep
      rw [← h.reg src, ← h.reg dst]
      exact follows_set h (binary_reg X (allocRegs dst) _ rfl) fun _ => logicFlags_known
  | and dst src =>
      cases hq
      cases hstep
      rw [← h.reg src, ← h.reg dst]
      exact follows_set h (binary_reg X (allocRegs dst) _ rfl) fun _ => logicFlags_known
  | andImm r v =>
      cases hq
      cases hstep
      rw [← h.reg r]
      exact follows_set h (binary_reg X (allocRegs r) _ rfl) fun _ => logicFlags_known
  | neg r =>
      cases hq
      cases hstep
      rw [← h.reg r]
      refine follows_set h (unary_reg X .neg (allocRegs r)) ?_
      rintro _ ⟨⟩
      exact ⟨rfl, rfl, rfl⟩
  | not r =>
      cases hq
      cases hstep
      apply follows_set_only h
      rw [← h.reg r]
      exact unary_reg X .not (allocRegs r)
  | leaOne r =>
      cases hq
      cases hstep
      apply follows_set_only h
      rw [← h.reg r]
      exact leaOne_step X (allocRegs r)
  | test a b =>
      cases hq
      cases hstep
      rw [← h.reg a, ← h.reg b]
      exact ⟨_, binary_compare X (allocRegs a) _ rfl, h.setFlags fun _ => logicFlags_known,
        fun _ _ => rfl⟩
  | shl r n =>
      cases hq
      cases hstep
      have hshift := unary_reg X (.shl (BitVec.ofNat 8 n)) (allocRegs r)
      rw [Unary.value, shiftCount_eq hi] at hshift
      rw [← h.reg r]
      exact follows_set h hshift nofun
  | shr r n =>
      cases hq
      cases hstep
      have hshift := unary_reg X (.shr (BitVec.ofNat 8 n)) (allocRegs r)
      rw [Unary.value, shiftCount_eq hi] at hshift
      rw [← h.reg r]
      exact follows_set h hshift nofun
  | bswap r =>
      cases hq
      cases hstep
      rw [← h.reg r]
      exact follows_set_only h rfl
  | movLow r =>
      cases hq
      cases hstep
      rw [← h.reg r]
      exact follows_set_only h (movLow_step X (allocRegs r))
  | load r base disp =>
      cases hq
      cases hstep
      rw [← h.mem]
      exact follows_set_only h (load_step (h.base base disp) _)
  | movbeLoad r base disp =>
      cases hq
      cases hstep
      rw [← h.mem]
      exact follows_set_only h (movbeLoad_step (h.base base disp) _)
  | store r base disp =>
      cases hq
      cases hstep
      rw [← h.reg r]
      exact ⟨_, mov_mem (h.base base disp) _, h.put _ _, fun _ _ => rfl⟩
  | movbeStore r base disp =>
      cases hq
      cases hstep
      rw [← h.reg r]
      exact ⟨_, movbeStore_step (h.base base disp) _, h.put _ _, fun _ _ => rfl⟩
  | storeImm disp v =>
      cases hq
      cases hstep
      exact ⟨_, storeImm_step h.r15 disp v, h.put _ _, fun _ _ => rfl⟩
  | testBitmap w => cases hi
  | cmpPage t1 => cases hi
  | jnz s => cases hi
  | jle s => cases hi
  | jmp s => cases hi

end EmitterBytes
end SubleqEmu
