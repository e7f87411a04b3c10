import SubleqEmu.EmitterBytes

/-!
# Decoding what is emitted

What a caller of the emitter asks for, as an instruction, and that the bytes are decoded
to it whatever comes after them.
-/

namespace SubleqEmu
namespace EmitterBytes

open X86

variable {bs : List Byte}

/-- [base + disp] -/
def atDisp (base : X86.Reg) (disp : BitVec 32) : Mem := ⟨.reg base, none, disp.signExtend 64⟩

/-! ## Fields -/

theorem and_seven (n : ℕ) : n &&& 7 = n % 8 := Nat.and_two_pow_sub_one_eq_mod n 3

theorem fields_small : ∀ mod : Fin 4, ∀ reg rm : Fin 8,
    fields (BitVec.ofNat 8 ((mod.val <<< 6) ||| (reg.val <<< 3) ||| rm.val)) =
      ⟨mod, reg, rm⟩ := by
  decide +kernel

/-- The byte of three fields. -/
theorem fields_of {mod : ℕ} (hmod : mod < 4) (reg rm : ℕ) :
    fields (BitVec.ofNat 8 ((mod <<< 6) ||| ((reg &&& 7) <<< 3) ||| (rm &&& 7))) =
      ⟨mod, reg % 8, rm % 8⟩ := by
  rw [and_seven, and_seven]
  exact fields_small ⟨mod, hmod⟩ ⟨reg % 8, Nat.mod_lt _ (by decide)⟩
    ⟨rm % 8, Nat.mod_lt _ (by decide)⟩

/-- The high bit of a register's number. -/
def high (r : X86.Reg) : Bool := 8 ≤ r.val

theorem shift_high : ∀ r : X86.Reg, r.val >>> 3 = (high r).toNat := by
  decide

theorem number_high : ∀ r : X86.Reg, number (high r) (r.val % 8) = r := by
  decide

theorem prefix_bits : ∀ w r x b : Bool,
    let v := BitVec.ofNat 8 (0x40 ||| (w.toNat <<< 3) ||| (r.toNat <<< 2) ||| (x.toNat <<< 1) |||
      b.toNat)
    v.toNat / 16 = 4 ∧
      (⟨v.getLsbD 3, v.getLsbD 2, v.getLsbD 1, v.getLsbD 0⟩ : Rex) = ⟨w, r, x, b⟩ := by
  decide

theorem takeRex_prefix (w r x b : Bool) :
    takeRex (e8 (0x40 ||| (w.toNat <<< 3) ||| (r.toNat <<< 2) ||| (x.toNat <<< 1) |||
      b.toNat) ++ bs) = (⟨w, r, x, b⟩, bs) := by
  obtain ⟨hrex, hbits⟩ := prefix_bits w r x b
  rw [e8, List.singleton_append, takeRex, if_pos hrex, hbits]

/-- The prefix, or its absence, before an opcode that is no prefix. -/
theorem takeRex_rex (w : Bool) (r x b : X86.Reg) {op : Byte} (hop : op.toNat / 16 ≠ 4) :
    takeRex (rex w.toNat r x b ++ op :: bs) = (⟨w, high r, high x, high b⟩, op :: bs) := by
  simp only [rex, shift_high]
  cases hall : (w || high r || high x || high b) with
  | true =>
      rw [if_pos, takeRex_prefix]
      revert hall
      generalize high r = r'
      generalize high x = x'
      generalize high b = b'
      revert w r' x' b'
      decide
  | false =>
      simp only [Bool.or_eq_false_iff] at hall
      obtain ⟨⟨⟨rfl, hr⟩, hx⟩, hb⟩ := hall
      rw [hr, hx, hb]
      simp [takeRex, hop]

theorem takeModRM_reg (p : Rex) (reg : ℕ) (rm : X86.Reg) :
    takeModRM p (modrmReg reg rm ++ bs) =
      some (⟨reg % 8, number p.r (reg % 8), .reg (number p.b (rm.val % 8))⟩, bs) := by
  have hfields := fields_of (by decide : 3 < 4) reg rm.val
  simp only [modrmReg, e8, List.singleton_append, takeModRM]
  rw [show 0xc0 = 3 <<< 6 by rfl, hfields]
  simp

theorem modOf_cases (base : X86.Reg) (disp : BitVec 32) :
    modOf base disp = 0 ∧ disp = 0 ∧ base.val % 8 ≠ 5 ∨
      modOf base disp = 1 ∧ -128 ≤ disp.toInt ∧ disp.toInt ≤ 127 ∨ modOf base disp = 2 := by
  unfold modOf
  rw [and_seven]
  split_ifs with hzero hshort
  · exact Or.inl ⟨rfl, hzero⟩
  · exact Or.inr (Or.inl ⟨rfl, hshort⟩)
  · exact Or.inr (Or.inr rfl)

/-- A displacement of one byte is the same as the one of four. -/
theorem signExtend_low (disp : BitVec 32) (h : -128 ≤ disp.toInt ∧ disp.toInt ≤ 127) :
    (disp.setWidth 8).signExtend 64 = disp.signExtend 64 := by
  apply BitVec.eq_of_toInt_eq
  rw [BitVec.toInt_signExtend_of_le (by omega), BitVec.toInt_signExtend_of_le (by omega),
    BitVec.toInt_setWidth, BitVec.toInt_eq_toNat_cond, Int.bmod_def]
  rw [BitVec.toInt_eq_toNat_cond] at h
  have := disp.isLt
  omega

theorem takeSigned_byte (v : Byte) (bs : List Byte) :
    takeSigned 1 (v :: bs) = some (v.signExtend 64, bs) := by
  have h := takeSigned_littleEndian 1 v bs
  rwa [littleEndian, littleEndian, BitVec.ofNat_toNat, BitVec.setWidth_eq] at h

theorem takeDisp_dispBytes (base : X86.Reg) (disp : BitVec 32) :
    takeDisp (modOf base disp) (dispBytes (modOf base disp) disp ++ bs) =
      some (disp.signExtend 64, bs) := by
  rcases modOf_cases base disp with ⟨hmod, rfl, -⟩ | ⟨hmod, hrange⟩ | hmod
  · rw [hmod]
    rfl
  · rw [hmod, ← signExtend_low disp hrange]
    exact takeSigned_byte (disp.setWidth 8) bs
  · rw [hmod]
    exact takeSigned_littleEndian 4 disp bs

/-- A base whose low bits ask for a SIB byte has one without an index, and one whose low
bits stand for another operand has a displacement. -/
theorem takeMem_operand (p : Rex) (mid : ℕ) (base : X86.Reg) (disp : BitVec 32)
    (hx : p.x = false) (hb : p.b = high base) :
    takeMem p ⟨modOf base disp, mid, base.val % 8⟩
      ((if base.val &&& 7 = 4 then e8 0x24 else []) ++ (dispBytes (modOf base disp) disp ++ bs)) =
      some (atDisp base disp, bs) := by
  have hplain : ¬ (base.val % 8 = 5 ∧ modOf base disp = 0) := by
    have hcases := modOf_cases base disp
    omega
  have hdisp := @takeDisp_dispBytes bs base disp
  have hnumber := number_high base
  rw [← hb] at hnumber
  rw [and_seven, takeMem]
  by_cases hsib : base.val % 8 = 4
  · have hbyte : fields (BitVec.ofNat 8 0x24) = ⟨0, 4, 4⟩ := by decide
    rw [hsib] at hnumber
    rw [if_pos hsib, if_pos hsib, e8, List.singleton_append, takeSib]
    simp only [hbyte]
    rw [if_neg (by omega), hdisp, hnumber, indexOf, hx]
    rfl
  · rw [if_neg hsib, if_neg hsib, if_neg hplain, List.nil_append, hdisp, hnumber]
    rfl

theorem takeModRM_cons (p : Rex) {b : Byte} {f : Fields} (hf : fields b = f)
    (hhigh : f.high ≠ 3) :
    takeModRM p (b :: bs) =
      (takeMem p f bs).map fun r => (⟨f.mid, number p.r f.mid, .mem r.1⟩, r.2) := by
  simp only [takeModRM, hf, if_neg hhigh]

theorem takeModRM_memOperand (p : Rex) (reg : ℕ) (base : X86.Reg) (disp : BitVec 32)
    (hx : p.x = false) (hb : p.b = high base) :
    takeModRM p (memOperand reg base disp ++ bs) =
      some (⟨reg % 8, number p.r (reg % 8), .mem (atDisp base disp)⟩, bs) := by
  have hcases := modOf_cases base disp
  have hmod : modOf base disp < 3 := by omega
  have hfields := fields_of (by omega : modOf base disp < 4) reg base.val
  have hmem := @takeMem_operand bs p (reg % 8) base disp hx hb
  rw [memOperand, List.append_assoc, List.append_assoc]
  refine (takeModRM_cons p hfields (Nat.ne_of_lt hmod)).trans ?_
  refine (congrArg (Option.map _) hmem).trans ?_
  rfl

/-! ## Opcodes after a prefix -/

theorem decode_one (w : Bool) (r x b : X86.Reg) {op : ℕ} (hop : op < 256)
    (hrex : op / 16 ≠ 4) (hescape : op ≠ 0x0f) :
    decode (rex w.toNat r x b ++ e8 op ++ bs) =
      decodeOne ⟨w, high r, high x, high b⟩ op bs := by
  have hnat : (BitVec.ofNat 8 op).toNat = op := Nat.mod_eq_of_lt hop
  rw [List.append_assoc, e8, List.singleton_append, decode, takeRex_rex _ _ _ _ (by rwa [hnat])]
  simp only [hnat, if_neg hescape]

theorem decode_two (w : Bool) (r x b : X86.Reg) {op : ℕ} (hop : op < 256) :
    decode (rex w.toNat r x b ++ e8 0x0f ++ e8 op ++ bs) =
      decodeTwo ⟨w, high r, high x, high b⟩ op bs := by
  have hnat : (BitVec.ofNat 8 op).toNat = op := Nat.mod_eq_of_lt hop
  rw [List.append_assoc, List.append_assoc, e8, e8, List.singleton_append,
    List.singleton_append, decode, takeRex_rex _ _ _ _ (by decide)]
  exact congrArg (fun op => decodeTwo _ op bs) hnat

/-! ## What is asked for -/

inductive MemOp
  | load
  | store
  | lea
  deriving DecidableEq

def MemOp.opcode : MemOp → ℕ
  | .load => 0x8b
  | .store => 0x89
  | .lea => 0x8d

/-- A call of the emitter. -/
inductive Request
  | opMem (op : MemOp) (r base : X86.Reg) (disp : BitVec 32)
  | movbeMem (store : Bool) (r base : X86.Reg) (disp : BitVec 32)
  | loadSib8 (r base index : X86.Reg)
  | cmpByteZero (base index : X86.Reg) (disp : BitVec 32)
  | testBitmap (w : Word)
  | storeImm (disp v : BitVec 32)
  | movRr (dst src : X86.Reg)
  | subRr (dst src : X86.Reg)
  | addRr (dst src : X86.Reg)
  | orRr (dst src : X86.Reg)
  | andRr (dst src : X86.Reg)
  | testRr (a b : X86.Reg)
  | btRr (base bit : X86.Reg)
  | bswap (r : X86.Reg)
  | negR (r : X86.Reg)
  | notR (r : X86.Reg)
  | shrRi (r : X86.Reg) (n : Byte)
  | shlRi (r : X86.Reg) (n : Byte)
  | movLow (r : X86.Reg)
  | movImm (r : X86.Reg) (v : Word)
  | aluImm (ext : ℕ) (r : X86.Reg) (v : BitVec 32)
  | jmpR (r : X86.Reg)
  deriving DecidableEq

namespace Request

def bytes : Request → List Byte
  | opMem op r base disp => EmitterBytes.opMem op.opcode r base disp
  | movbeMem store r base disp => EmitterBytes.movbeMem store r base disp
  | loadSib8 r base index => EmitterBytes.loadSib8 r base index
  | cmpByteZero base index disp => EmitterBytes.cmpByteZero base index disp
  | testBitmap w => EmitterBytes.testBitmap w
  | storeImm disp v => EmitterBytes.storeImm disp v
  | movRr dst src => EmitterBytes.movRr dst src
  | subRr dst src => EmitterBytes.subRr dst src
  | addRr dst src => EmitterBytes.addRr dst src
  | orRr dst src => EmitterBytes.orRr dst src
  | andRr dst src => EmitterBytes.andRr dst src
  | testRr a b => EmitterBytes.testRr a b
  | btRr base bit => EmitterBytes.btRr base bit
  | bswap r => EmitterBytes.bswap r
  | negR r => EmitterBytes.negR r
  | notR r => EmitterBytes.notR r
  | shrRi r n => EmitterBytes.shrRi r n
  | shlRi r n => EmitterBytes.shlRi r n
  | movLow r => EmitterBytes.movLow r
  | movImm r v => EmitterBytes.movImm r v
  | aluImm ext r v => EmitterBytes.aluImm ext r v
  | jmpR r => EmitterBytes.jmpR r

/-- The instruction that the caller means. -/
def meaning : Request → Instr
  | opMem .load r base disp => .load .qword r (.mem (atDisp base disp))
  | opMem .store r base disp =>
      .binary .mov .qword (.mem (atDisp base disp)) r
  | opMem .lea r base disp => .lea .qword r (atDisp base disp)
  | movbeMem true r base disp => .movbeStore .qword (atDisp base disp) r
  | movbeMem false r base disp => .movbeLoad .qword r (atDisp base disp)
  | loadSib8 r base index => .load .qword r (.mem ⟨.reg base, some (index, 3), 0⟩)
  | cmpByteZero base index disp =>
      .binaryImm .cmp .byte (.mem ⟨.reg base, some (index, 0), disp.signExtend 64⟩) 0
  | testBitmap w =>
      .binaryImm .test .byte (.mem (atDisp r14 ((w >>> 3).setWidth 32)))
        ((BitVec.ofNat 8 (1 <<< (w.toNat % 8))).signExtend 64)
  | storeImm disp v =>
      .binaryImm .mov .qword (.mem (atDisp r15 disp)) (v.signExtend 64)
  | movRr dst src => .binary .mov .qword (.reg dst) src
  | subRr dst src => .binary .sub .qword (.reg dst) src
  | addRr dst src => .binary .add .qword (.reg dst) src
  | orRr dst src => .binary .or .qword (.reg dst) src
  | andRr dst src => .binary .and .qword (.reg dst) src
  | testRr a b => .binary .test .qword (.reg a) b
  | btRr base bit => .bt .qword (.reg base) bit
  | bswap r => .bswap .qword r
  | negR r => .unary .neg .qword (.reg r)
  | notR r => .unary .not .qword (.reg r)
  | shrRi r n => .unary (.shr n) .qword (.reg r)
  | shlRi r n => .unary (.shl n) .qword (.reg r)
  | movLow r => .binary .mov .dword (.reg r) r
  | movImm r v =>
      if v ≤ 0xffffffff then .movImm .dword r v
      else if v = (v.setWidth 32).signExtend 64 then .binaryImm .mov .qword (.reg r) v
      else .movImm .qword r v
  | aluImm ext r v =>
      .binaryImm (if ext = 0 then .add else if ext = 4 then .and else .sub) .qword (.reg r)
        (v.signExtend 64)
  | jmpR r => .jmpTo (.reg r)

/-- The registers that these encodings have, and the operations of `alu_imm`. -/
def Allowed : Request → Prop
  | loadSib8 _ base index => base.val % 8 ≠ 5 ∧ index ≠ rsp
  | cmpByteZero _ index _ => index ≠ rsp
  | aluImm ext _ _ => ext = 0 ∨ ext = 4 ∨ ext = 5
  | _ => True

end Request

/-! ## Operands in memory -/

theorem opMem_decodes (op : MemOp) (r base : X86.Reg) (disp : BitVec 32) :
    decode ((Request.opMem op r base disp).bytes ++ bs) =
      some ((Request.opMem op r base disp).meaning, bs) := by
  have hmodrm := @takeModRM_memOperand bs ⟨true, high r, high 0, high base⟩ r base disp rfl rfl
  rw [Request.bytes, opMem, List.append_assoc]
  cases op with
  | load =>
      refine (decode_one true r 0 base (by decide) (by decide) (by decide)).trans ?_
      refine (congrArg (Option.map _) hmodrm).trans ?_
      rw [number_high]
      rfl
  | store =>
      refine (decode_one true r 0 base (by decide) (by decide) (by decide)).trans ?_
      refine (congrArg (Option.map _) hmodrm).trans ?_
      rw [number_high]
      rfl
  | lea =>
      refine (decode_one true r 0 base (by decide) (by decide) (by decide)).trans ?_
      refine (congrArg (Option.bind · _) hmodrm).trans ?_
      rw [number_high]
      rfl

theorem movbeMem_decodes (store : Bool) (r base : X86.Reg) (disp : BitVec 32) :
    decode ((Request.movbeMem store r base disp).bytes ++ bs) =
      some ((Request.movbeMem store r base disp).meaning, bs) := by
  have hmodrm := @takeModRM_memOperand bs ⟨true, high r, high 0, high base⟩ r base disp rfl rfl
  rw [Request.bytes, movbeMem, List.append_assoc, List.append_assoc]
  refine (decode_two true r 0 base (by decide)).trans ?_
  cases store with
  | true =>
      refine (congrArg (Option.bind · _) hmodrm).trans ?_
      rw [number_high]
      rfl
  | false =>
      refine (congrArg (Option.bind · _) hmodrm).trans ?_
      rw [number_high]
      rfl

theorem indexOf_number (p : Rex) (index : X86.Reg) (scale low : ℕ) (hx : p.x = high index)
    (hindex : index ≠ rsp) : indexOf p ⟨scale, index.val % 8, low⟩ = some (index, scale) := by
  simp only [indexOf, hx, number_high]
  exact if_neg hindex

theorem takeModRM_sib (p : Rex) {b sib : Byte} {mod mid : ℕ} {g : Fields}
    (hb : fields b = ⟨mod, mid, 4⟩) (hsib : fields sib = g) (hmod : mod ≠ 3)
    (hbase : ¬ (g.low = 5 ∧ mod = 0)) :
    takeModRM p (b :: sib :: bs) = (takeDisp mod bs).map fun r =>
      (⟨mid, number p.r mid, .mem ⟨.reg (number p.b g.low), indexOf p g, r.1⟩⟩, r.2) := by
  rw [takeModRM_cons p hb hmod, takeMem, if_pos rfl, takeSib]
  simp only [hsib]
  rw [if_neg hbase, Option.map_map]
  rfl

theorem loadSib8_decodes (r base index : X86.Reg) (hbase : base.val % 8 ≠ 5)
    (hindex : index ≠ rsp) :
    decode ((Request.loadSib8 r base index).bytes ++ bs) =
      some ((Request.loadSib8 r base index).meaning, bs) := by
  have hmodrm : fields (BitVec.ofNat 8 (0x04 ||| ((r.val &&& 7) <<< 3))) =
      ⟨0, r.val % 8, 4⟩ := by
    have h := fields_of (by decide : 0 < 4) r.val 4
    rwa [Nat.zero_shiftLeft, Nat.zero_or, Nat.or_comm] at h
  have hsib := fields_of (by decide : 3 < 4) index.val base.val
  rw [Request.bytes, loadSib8, List.append_assoc, List.append_assoc]
  refine (decode_one true r index base (by decide) (by decide) (by decide)).trans ?_
  refine (congrArg (Option.map _) (takeModRM_sib ⟨true, high r, high index, high base⟩ hmodrm hsib
    (by decide) fun h => hbase h.1)).trans ?_
  rw [indexOf_number _ index _ _ rfl hindex, number_high, number_high]
  rfl

theorem cmpByteZero_decodes (base index : X86.Reg) (disp : BitVec 32) (hindex : index ≠ rsp) :
    decode ((Request.cmpByteZero base index disp).bytes ++ bs) =
      some ((Request.cmpByteZero base index disp).meaning, bs) := by
  have hmodrm : fields (BitVec.ofNat 8 0xbc) = ⟨2, 7, 4⟩ := by decide
  have hsib : fields (BitVec.ofNat 8 (((index.val &&& 7) <<< 3) ||| (base.val &&& 7))) =
      ⟨0, index.val % 8, base.val % 8⟩ := by
    have h := fields_of (by decide : 0 < 4) index.val base.val
    rwa [Nat.zero_shiftLeft, Nat.zero_or] at h
  have hdisp : takeDisp 2 (e32 disp ++ (e8 0 ++ bs)) = some (disp.signExtend 64, e8 0 ++ bs) :=
    takeSigned_littleEndian 4 disp (e8 0 ++ bs)
  have hrm := @takeModRM_sib (e32 disp ++ (e8 0 ++ bs)) ⟨false, high 0, high index, high base⟩
    _ _ _ _ _ hmodrm hsib (by decide) (by simp)
  rw [hdisp, indexOf_number _ index _ _ rfl hindex, number_high] at hrm
  rw [Request.bytes, cmpByteZero, List.append_assoc, List.append_assoc, List.append_assoc,
    List.append_assoc]
  refine (decode_one false 0 index base (by decide) (by decide) (by decide)).trans ?_
  exact decodeByte_of hrm rfl rfl rfl

/-! ## Operands in registers -/

theorem rr_decodes {op : ℕ} {o : Binary} (dst src : X86.Reg) (hop : op < 256)
    (hrex : op / 16 ≠ 4) (hescape : op ≠ 0x0f)
    (hone : ∀ p bs, decodeOne p op bs = decodeBinary p o bs) :
    decode (rr op dst src ++ bs) = some (.binary o .qword (.reg dst) src, bs) := by
  rw [rr, List.append_assoc]
  refine (decode_one true src 0 dst hop hrex hescape).trans ?_
  rw [hone, decodeBinary, takeModRM_reg, number_high, number_high]
  rfl

/-- A part of the opcode in the ModRM byte, with a register as the operand. -/
theorem takeModRM_ext (w : Bool) (ext : ℕ) (r : X86.Reg) :
    takeModRM ⟨w, high 0, high 0, high r⟩ (modrmReg ext r ++ bs) =
      some (⟨ext % 8, number false (ext % 8), .reg r⟩, bs) := by
  rw [takeModRM_reg, number_high]
  rfl

theorem negR_decodes (r : X86.Reg) :
    decode ((Request.negR r).bytes ++ bs) = some ((Request.negR r).meaning, bs) := by
  rw [Request.bytes, negR, List.append_assoc]
  refine (decode_one true 0 0 r (by decide) (by decide) (by decide)).trans ?_
  exact congrArg (Option.bind · _) (takeModRM_ext true 3 r)

theorem notR_decodes (r : X86.Reg) :
    decode ((Request.notR r).bytes ++ bs) = some ((Request.notR r).meaning, bs) := by
  rw [Request.bytes, notR, List.append_assoc]
  refine (decode_one true 0 0 r (by decide) (by decide) (by decide)).trans ?_
  exact congrArg (Option.bind · _) (takeModRM_ext true 2 r)

theorem jmpR_decodes (r : X86.Reg) :
    decode ((Request.jmpR r).bytes ++ bs) = some ((Request.jmpR r).meaning, bs) := by
  rw [Request.bytes, jmpR, List.append_assoc]
  refine (decode_one false 0 0 r (by decide) (by decide) (by decide)).trans ?_
  exact congrArg (Option.bind · _) (takeModRM_ext false 4 r)

theorem shrRi_decodes (r : X86.Reg) (n : Byte) :
    decode ((Request.shrRi r n).bytes ++ bs) = some ((Request.shrRi r n).meaning, bs) := by
  rw [Request.bytes, shrRi, List.append_assoc, List.append_assoc]
  refine (decode_one true 0 0 r (by decide) (by decide) (by decide)).trans ?_
  exact congrArg (Option.bind · _) (takeModRM_ext true 5 r)

theorem shlRi_decodes (r : X86.Reg) (n : Byte) :
    decode ((Request.shlRi r n).bytes ++ bs) = some ((Request.shlRi r n).meaning, bs) := by
  rw [Request.bytes, shlRi, List.append_assoc, List.append_assoc]
  refine (decode_one true 0 0 r (by decide) (by decide) (by decide)).trans ?_
  exact congrArg (Option.bind · _) (takeModRM_ext true 4 r)

theorem btRr_decodes (base bit : X86.Reg) :
    decode ((Request.btRr base bit).bytes ++ bs) = some ((Request.btRr base bit).meaning, bs) := by
  have hrm := @takeModRM_reg bs ⟨true, high bit, high 0, high base⟩ bit base
  rw [number_high, number_high] at hrm
  rw [Request.bytes, btRr, List.append_assoc]
  refine (decode_two true bit 0 base (by decide)).trans ?_
  exact congrArg (Option.map _) hrm

theorem movLow_decodes (r : X86.Reg) :
    decode ((Request.movLow r).bytes ++ bs) = some ((Request.movLow r).meaning, bs) := by
  have hrm := @takeModRM_reg bs ⟨false, high r, high 0, high r⟩ r r
  rw [number_high] at hrm
  rw [Request.bytes, movLow, List.append_assoc]
  refine (decode_one false r 0 r (by decide) (by decide) (by decide)).trans ?_
  exact congrArg (Option.map _) hrm

/-- The register in the opcode. -/
theorem opcode_register (op : ℕ) (r : X86.Reg) :
    (op * 8 + (r.val &&& 7)) / 8 = op ∧ (op * 8 + (r.val &&& 7)) % 8 = r.val % 8 := by
  rw [and_seven]
  omega

theorem bswap_decodes (r : X86.Reg) :
    decode ((Request.bswap r).bytes ++ bs) = some ((Request.bswap r).meaning, bs) := by
  have hlow : r.val &&& 7 < 8 := Nat.and_lt_two_pow r.val (by decide : 7 < 2 ^ 3)
  obtain ⟨hdiv, hmod⟩ := opcode_register 0x19 r
  have hop : 0xc8 + (r.val &&& 7) < 256 := by omega
  refine (decode_two true 0 0 r hop).trans ?_
  refine (if_neg (by omega)).trans ?_
  refine (if_pos hdiv).trans ?_
  rw [hmod, number_high]
  rfl

/-! ## Immediates -/

theorem aluImm_decodes (ext : ℕ) (r : X86.Reg) (v : BitVec 32)
    (hext : ext = 0 ∨ ext = 4 ∨ ext = 5) :
    decode ((Request.aluImm ext r v).bytes ++ bs) =
      some ((Request.aluImm ext r v).meaning, bs) := by
  have hrm := @takeModRM_ext (e32 v ++ bs) true ext r
  have himm : takeSigned 4 (e32 v ++ bs) = some (v.signExtend 64, bs) :=
    takeSigned_littleEndian 4 v bs
  rw [Request.bytes, aluImm, List.append_assoc, List.append_assoc]
  refine (decode_one true 0 0 r (by decide) (by decide) (by decide)).trans ?_
  rcases hext with rfl | rfl | rfl
  · exact decodeImm_of hrm rfl himm
  · exact decodeImm_of hrm rfl himm
  · exact decodeImm_of hrm rfl himm

theorem storeImm_decodes (disp v : BitVec 32) :
    decode ((Request.storeImm disp v).bytes ++ bs) =
      some ((Request.storeImm disp v).meaning, bs) := by
  have hrm := @takeModRM_memOperand (e32 v ++ bs) ⟨true, high 0, high 0, high r15⟩ 0 r15 disp
    rfl rfl
  have himm : takeSigned 4 (e32 v ++ bs) = some (v.signExtend 64, bs) :=
    takeSigned_littleEndian 4 v bs
  rw [Request.bytes, storeImm, List.append_assoc, List.append_assoc]
  refine (decode_one true 0 0 r15 (by decide) (by decide) (by decide)).trans ?_
  exact decodeImm_of hrm rfl himm

theorem testBitmap_decodes (w : Word) :
    decode ((Request.testBitmap w).bytes ++ bs) =
      some ((Request.testBitmap w).meaning, bs) := by
  have hrm := @takeModRM_memOperand (e8 (1 <<< (w.toNat &&& 7)) ++ bs)
    ⟨false, high 0, high 0, high r14⟩ 0 r14 ((w >>> 3).setWidth 32) rfl rfl
  rw [Request.bytes, testBitmap, List.append_assoc, List.append_assoc]
  refine (decode_one false 0 0 r14 (by decide) (by decide) (by decide)).trans ?_
  have himm : takeSigned 1 (e8 (1 <<< (w.toNat &&& 7)) ++ bs) =
      some ((BitVec.ofNat 8 (1 <<< (w.toNat % 8))).signExtend 64, bs) := by
    rw [and_seven]
    exact takeSigned_byte _ bs
  exact decodeByte_of hrm rfl rfl himm

theorem movImm_decodes (r : X86.Reg) (v : Word) :
    decode ((Request.movImm r v).bytes ++ bs) = some ((Request.movImm r v).meaning, bs) := by
  have hlow : r.val &&& 7 < 8 := Nat.and_lt_two_pow r.val (by decide : 7 < 2 ^ 3)
  obtain ⟨hdiv, hmod⟩ := opcode_register 0x17 r
  rw [Request.bytes, Request.meaning, movImm]
  split_ifs with hshort hsigned
  · have himm : takeUnsigned 4 (e32 (v.setWidth 32) ++ bs) = some (v, bs) := by
      have hlt : (v.setWidth 32).toNat < 256 ^ 4 := (v.setWidth 32).isLt
      have h := takeUnsigned_littleEndian hlt bs
      have hv : BitVec.ofNat 64 (v.setWidth 32).toNat = v := by bv_omega
      rwa [hv] at h
    rw [List.append_assoc]
    have hop : 0xb8 + (r.val &&& 7) < 256 := by omega
    refine (decode_one false 0 0 r hop (by omega) (by omega)).trans ?_
    refine (if_pos hdiv).trans ?_
    rw [hmod]
    refine (congrArg (Option.map _) himm).trans ?_
    rw [number_high]
    rfl
  · have himm : takeSigned 4 (e32 (v.setWidth 32) ++ bs) =
        some ((v.setWidth 32).signExtend 64, bs) :=
      takeSigned_littleEndian 4 (v.setWidth 32) bs
    have hrm := @takeModRM_ext (e32 (v.setWidth 32) ++ bs) true 0 r
    rw [List.append_assoc, List.append_assoc]
    refine (decode_one true 0 0 r (by decide) (by decide) (by decide)).trans ?_
    rw [← hsigned] at himm
    exact decodeImm_of hrm rfl himm
  · have himm : takeUnsigned 8 (e64 v ++ bs) = some (v, bs) := by
      have h := takeUnsigned_littleEndian (show v.toNat < 256 ^ 8 from v.isLt) bs
      rwa [BitVec.ofNat_toNat, BitVec.setWidth_eq] at h
    rw [List.append_assoc]
    have hop : 0xb8 + (r.val &&& 7) < 256 := by omega
    refine (decode_one true 0 0 r hop (by omega) (by omega)).trans ?_
    refine (if_pos hdiv).trans ?_
    rw [hmod]
    refine (congrArg (Option.map _) himm).trans ?_
    rw [number_high]
    rfl

/-- What is emitted is decoded to what was asked for. -/
theorem Request.decodes (q : Request) (h : q.Allowed) :
    decode (q.bytes ++ bs) = some (q.meaning, bs) := by
  cases q with
  | opMem op r base disp => exact opMem_decodes op r base disp
  | movbeMem store r base disp => exact movbeMem_decodes store r base disp
  | loadSib8 r base index => exact loadSib8_decodes r base index h.1 h.2
  | cmpByteZero base index disp => exact cmpByteZero_decodes base index disp h
  | testBitmap w => exact testBitmap_decodes w
  | storeImm disp v => exact storeImm_decodes disp v
  | movRr dst src => exact rr_decodes dst src (by decide) (by decide) (by decide) fun _ _ => rfl
  | subRr dst src => exact rr_decodes dst src (by decide) (by decide) (by decide) fun _ _ => rfl
  | addRr dst src => exact rr_decodes dst src (by decide) (by decide) (by decide) fun _ _ => rfl
  | orRr dst src => exact rr_decodes dst src (by decide) (by decide) (by decide) fun _ _ => rfl
  | andRr dst src => exact rr_decodes dst src (by decide) (by decide) (by decide) fun _ _ => rfl
  | testRr a b => exact rr_decodes a b (by decide) (by decide) (by decide) fun _ _ => rfl
  | btRr base bit => exact btRr_decodes base bit
  | bswap r => exact bswap_decodes r
  | negR r => exact negR_decodes r
  | notR r => exact notR_decodes r
  | shrRi r n => exact shrRi_decodes r n
  | shlRi r n => exact shlRi_decodes r n
  | movLow r => exact movLow_decodes r
  | movImm r v => exact movImm_decodes r v
  | aluImm ext r v => exact aluImm_decodes ext r v h
  | jmpR r => exact jmpR_decodes r

end EmitterBytes
end SubleqEmu
