import SubleqEmu.BlockCodeExits

/-!
# The entry of a block

The tests in front of the instructions of a block: of the budget, of the watched word and of
the words it stores to, and the call of `jit_copy`.
-/

namespace SubleqEmu
namespace BlockCode

open X86 Emitter ByteMemory EmitterBytes BlockBuffers Parts
open Machine (bias)
open Translator (fitsDisp int32)

attribute [local instance] X86.neZero_sixteen BlockBuffers.neZero_eleven

variable {b : Parts} {X X' : X86.State} {a x v addr : Word} {place : Label → Word}
  {n : BitVec 32} {C : Word → X86.State → X86.State → Prop} {m : Memory} {budget : Word}
  {r base : X86.Reg} {disp : BitVec 32} {bs : List Byte}

/-! ## The budget -/

theorem lt_subFlags (a b : Word) : ((a - b).msb != BitVec.ssubOverflow a b) = a.slt b := by
  have hle := Machine.le_subFlags a b
  simp only [Machine.Flags.le, Machine.subFlags] at hle
  by_cases hzero : a - b = 0
  · have heq : a = b := by bv_omega
    subst heq
    simp [BitVec.slt, BitVec.ssubOverflow]
  · have hne : a ≠ b := fun heq => hzero (by simp [heq])
    rw [decide_eq_false hzero, Bool.false_or] at hle
    rw [hle, BitVec.sle_eq_slt_or_eq]
    simp [hne]

theorem condition_lt {f : X86.Flags} {z w : Bool} (hs : f.sf = some z) (ho : f.of = some w) :
    condition 0xc f = some (z != w) := by
  simp [condition, hs, ho]

/-- The instructions of a block are taken from the budget at its entry. -/
theorem entry_steps (hlaid : Laid X.mem place a b.entryCode) :
    ∃ X', Steps C ⟨a, X⟩ ⟨if (X.reg rbp).slt (b.n.signExtend 64) then place .budget
        else a + BitVec.ofNat 64 (codeSize b.entryCode), X'⟩ ∧
      Handed X X' X.mem (X.reg rbp - b.n.signExtend 64) := by
  obtain ⟨-, hsub, hjcc⟩ := hlaid
  have hstep := @binary_reg .sub X rbp (b.n.signExtend 64) rfl
  have hone := step_request (C := C) (q := .aluImm 5 rbp b.n) (Or.inr (Or.inr rfl)) hsub hstep
  have hcond := condition_lt
    (f := Binary.flags .sub (X.reg rbp) (b.n.signExtend 64) X.flags) rfl rfl
  rw [lt_subFlags] at hcond
  have htwo := step_jcc (C := C) (s := { X.set rbp (Binary.value .sub (X.reg rbp)
    (b.n.signExtend 64)) with flags := Binary.flags .sub (X.reg rbp) (b.n.signExtend 64) X.flags })
    (by decide) hjcc hcond
  have hsize : codeSize b.entryCode = (aluImm 5 5 b.n).length + 6 := by
    simp [entryCode, Piece.size]
  rw [hsize, ← add_ofNat_add]
  refine ⟨_, .tail (.single hone) htwo, ?_⟩
  constructor <;> simp [State.set, Binary.value, rbp, rsp, r12, r14, r15]

/-! ## The watched word -/

theorem Handed.flags (h : Handed X X' m budget) (f : X86.Flags) :
    Handed X { X' with flags := f } m budget :=
  ⟨h.mem, h.budget, h.stack, h.exit, h.maps, h.bias⟩

/-- cmp [base + disp], r -/
theorem compare_decodes (r base : X86.Reg) (disp : BitVec 32) (rest : List Byte) :
    decode (rex 1 r 0 base ++ e8 0x39 ++ memOperand r base disp ++ rest) =
      some (.binary .cmp .qword (.mem (atDisp base disp)) r, rest) := by
  have hmodrm := @takeModRM_memOperand rest ⟨true, high r, high 0, high base⟩ r base disp rfl rfl
  rw [List.append_assoc]
  refine (decode_one true r 0 base (by decide) (by decide) (by decide)).trans ?_
  refine (congrArg (Option.map _) hmodrm).trans ?_
  rw [number_high]
  rfl

theorem length_compare (r base : X86.Reg) (disp : BitVec 32) :
    (rex 1 r 0 base ++ e8 0x39 ++ memOperand r base disp).length ≤ 15 :=
  (length_opMem 0x39 r base disp).trans (by decide)

/-- A word of memory, in the program's byte order, compared with a constant. -/
theorem step_compare (haddr : X.address (atDisp base disp) = some addr)
    (hv : X.reg r = ByteMemory.bswap v)
    (hheld : Holds X.mem a (rex 1 r 0 base ++ e8 0x39 ++ memOperand r base disp)) :
    ∃ f, Step C ⟨a, X⟩ ⟨a + BitVec.ofNat 64
        (rex 1 r 0 base ++ e8 0x39 ++ memOperand r base disp).length, { X with flags := f }⟩ ∧
      f.zf = some (decide (read X.mem addr = v)) := by
  have hstep : X.step (.binary .cmp .qword (.mem (atDisp base disp)) r) = some { X with
      flags := Binary.flags .cmp (ByteMemory.bswap (read X.mem addr)) (X.reg r) X.flags } := by
    rw [State.step, State.binary, get_mem haddr]
    simp [Binary.writes]
  refine ⟨_, step_plain hheld (length_compare r base disp) (compare_decodes r base disp) hstep, ?_⟩
  have hzero : ByteMemory.bswap (read X.mem addr) - ByteMemory.bswap v = 0 ↔
      read X.mem addr = v := by
    constructor
    · intro h
      have heq : ByteMemory.bswap (read X.mem addr) = ByteMemory.bswap v := by bv_omega
      rw [← bswap_bswap (read X.mem addr), heq, bswap_bswap]
    · intro h
      rw [h]
      exact BitVec.sub_self _
  simp only [Binary.flags, resultFlags, hv, hzero]

theorem laid_bytes_append {bs bs' : List Byte} {ps : Code} :
    Laid m place a (.bytes (bs ++ bs') :: ps) ↔ Laid m place a (.bytes bs :: .bytes bs' :: ps) := by
  simp [Laid, holds_append, add_ofNat_add, and_assoc]

theorem compare_jumps (haddr : X.address (atDisp base disp) = some addr)
    (hv : X.reg r = ByteMemory.bswap v)
    (hlaid : Laid X.mem place a
      (.bytes (rex 1 r 0 base ++ e8 0x39 ++ memOperand r base disp) :: jcc 0x5 .watch)) :
    ∃ X', Steps C ⟨a, X⟩ ⟨if read X.mem addr ≠ v then place .watch
        else a + BitVec.ofNat 64
          (rex 1 r 0 base ++ e8 0x39 ++ memOperand r base disp).length + 6, X'⟩ ∧
      Handed X X' X.mem (X.reg rbp) := by
  obtain ⟨f, hone, hz⟩ := step_compare (C := C) haddr hv hlaid.1
  have htwo := step_jcc (C := C) (s := { X with flags := f }) (by decide) hlaid.2
    (condition_nz hz)
  refine ⟨{ X with flags := f }, .tail (.single hone) ?_, (Handed.self X).flags f⟩
  simpa using htwo

theorem add_six (a : Word) (n k : ℕ) :
    a + BitVec.ofNat 64 n + BitVec.ofNat 64 k + 6 = a + BitVec.ofNat 64 (n + k + 6) := by
  rw [← add_ofNat_add, ← add_ofNat_add]
  rfl

/-- The test of the watched word. -/
theorem watch_steps {w : Word × Word} (hbias : X.reg r15 = bias)
    (hlaid : Laid X.mem place a (.bytes (watchCompare w.1 w.2) :: jcc 0x5 .watch)) :
    ∃ X', Steps C ⟨a, X⟩ ⟨if read X.mem w.1 ≠ w.2 then place .watch
        else a + BitVec.ofNat 64 ((watchCompare w.1 w.2).length + 6), X'⟩ ∧
      Handed X X' X.mem (X.reg rbp) := by
  obtain ⟨addr, v⟩ := w
  have hhanded := (Handed.self X).set (ByteMemory.bswap v) (r := rax) (by decide)
  unfold watchCompare at hlaid ⊢
  by_cases hfits : fitsDisp addr
  · simp only [hfits, if_true] at hlaid ⊢
    obtain ⟨hmov, hrest⟩ := laid_bytes_append.mp hlaid
    have hone := step_movImm (C := C) (ByteMemory.bswap v) hmov
    have haddr : (X.set rax (ByteMemory.bswap v)).address (atDisp r15 (int32 (addr - bias))) =
        some addr := by
      have h := Translator.address_static hfits ⟨fun _ => 0, none, X.mem, []⟩
      simp only [Machine.State.address] at h
      simp [State.address, atDisp, hhanded.bias, hbias, h]
    obtain ⟨X', hsteps, hafter⟩ := compare_jumps (C := C) (v := v) haddr
      (by simp [State.set]) hrest
    rw [add_six, ← List.length_append] at hsteps
    exact ⟨X', .head hone hsteps, hhanded.trans hafter⟩
  · simp only [hfits, Bool.false_eq_true, if_false] at hlaid ⊢
    have hassoc : movImm 1 addr ++ rex 1 rax 0 1 ++ e8 0x39 ++ memOperand rax 1 0 =
        movImm 1 addr ++ (rex 1 rax 0 1 ++ e8 0x39 ++ memOperand rax 1 0) := by
      simp only [List.append_assoc]
    rw [hassoc] at hlaid ⊢
    obtain ⟨hmov, hrest⟩ := laid_bytes_append.mp hlaid
    obtain ⟨hmov', hrest⟩ := laid_bytes_append.mp hrest
    have hhanded' := hhanded.set addr (r := 1) (by decide)
    have hone := step_movImm (C := C) (ByteMemory.bswap v) hmov
    have htwo := step_movImm (C := C) (X := X.set rax (ByteMemory.bswap v)) addr hmov'
    have haddr : ((X.set rax (ByteMemory.bswap v)).set 1 addr).address (atDisp 1 0) =
        some addr := by
      simp [State.address, atDisp, State.set]
    obtain ⟨X', hsteps, hafter⟩ := compare_jumps (C := C) (v := v) haddr
      (by simp [State.set, rax]) hrest
    rw [add_ofNat_add, add_six, ← List.length_append, ← List.length_append,
      List.append_assoc] at hsteps
    rw [add_ofNat_add, ← List.length_append] at htwo
    exact ⟨X', .head hone (.head htwo hsteps), hhanded'.trans hafter⟩

/-! ## The words stored to -/

theorem length_group (g : Word × BitVec 32) : (groupBytes g).length ≤ 15 := by
  have hrex : (rex 0 0 0 r14).length ≤ 1 := length_rex _ _ _ _
  have hoperand := length_memOperand 0 r14 (int32 (g.1 <<< 2))
  simp only [groupBytes, List.length_append, e8, e32, List.length_singleton, length_littleEndian]
  omega

theorem group_decodes (g : Word × BitVec 32) (rest : List Byte) :
    decode (groupBytes g ++ rest) = some (.binaryImm .test .dword
      (.mem (atDisp r14 (int32 (g.1 <<< 2)))) (g.2.signExtend 64), rest) := by
  have hrm := @takeModRM_memOperand (e32 g.2 ++ rest) ⟨false, high 0, high 0, high r14⟩ 0 r14
    (int32 (g.1 <<< 2)) rfl rfl
  have himm : takeSigned 4 (e32 g.2 ++ rest) = some (g.2.signExtend 64, rest) :=
    takeSigned_littleEndian 4 g.2 rest
  rw [groupBytes, List.append_assoc, List.append_assoc]
  refine (decode_one false 0 0 r14 (by decide) (by decide) (by decide)).trans ?_
  refine (congrArg (Option.bind · _) hrm).trans ?_
  exact decodeImm_of hrm rfl himm

/-- The test of a dword of the bitmap. -/
theorem step_group (g : Word × BitVec 32) (hheld : Holds X.mem a (groupBytes g)) :
    ∃ f, Step C ⟨a, X⟩ ⟨a + BitVec.ofNat 64 (groupBytes g).length, { X with flags := f }⟩ ∧
      f.zf = some !(StaticMap.testGroup X.mem (X.reg r14) g) := by
  have haddr : X.address (atDisp r14 (int32 (g.1 <<< 2))) =
      some (X.reg r14 + (int32 (g.1 <<< 2)).signExtend 64) := by
    simp [State.address, atDisp]
  have hmask : (g.2.signExtend 64).setWidth 32 = g.2 := by
    apply BitVec.eq_of_getLsbD_eq
    intro k hk
    rw [BitVec.getLsbD_setWidth, BitVec.getLsbD_signExtend]
    simp [hk, show k < 64 by omega]
  have htest : StaticMap.testGroup X.mem (X.reg r14) g = decide (BitVec.ofNat 32
      (readLittle X.mem (X.reg r14 + (int32 (g.1 <<< 2)).signExtend 64) 4) &&& g.2 ≠ 0) := by
    rw [StaticMap.testGroup, StaticMap.memOperand_address, readLittle_eq_readLe]
    rfl
  generalize hd : BitVec.ofNat 32 (readLittle X.mem
    (X.reg r14 + (int32 (g.1 <<< 2)).signExtend 64) 4) = d at htest
  have hstep : X.step (.binaryImm .test .dword (.mem (atDisp r14 (int32 (g.1 <<< 2))))
      (g.2.signExtend 64)) =
      some { X with flags := Binary.flags .test d g.2 X.flags } := by
    rw [State.step, State.binary, State.get, haddr, ← hd]
    simp [Binary.writes, hmask, Size.bytes]
  refine ⟨_, step_plain hheld (length_group g) (group_decodes g) hstep, ?_⟩
  have hzero : (Binary.flags .test d g.2 X.flags).zf = some (decide (d &&& g.2 = 0)) := rfl
  rw [htest, hzero]
  by_cases h : d &&& g.2 = 0 <;> simp [h]

theorem hoist_steps {sites : List (Word × BitVec 32)} (hlaid : Laid X.mem place a
      (sites.flatMap fun g => .bytes (groupBytes g) :: jcc 0x5 .hoist)) :
    ∃ X', Steps C ⟨a, X⟩ ⟨if sites.any (StaticMap.testGroup X.mem (X.reg r14)) then place .hoist
        else a + BitVec.ofNat 64 (codeSize
          (sites.flatMap fun g => .bytes (groupBytes g) :: jcc 0x5 Label.hoist)), X'⟩ ∧
      Handed X X' X.mem (X.reg rbp) := by
  induction sites generalizing X a with
  | nil => exact ⟨X, by simpa using Relation.ReflTransGen.refl, .self X⟩
  | cons g sites ih =>
      rw [List.flatMap_cons] at hlaid
      obtain ⟨⟨hbytes, hjcc⟩, hrest⟩ := laid_append.mp hlaid
      obtain ⟨f, hone, hz⟩ := step_group (C := C) g hbytes
      have htwo := step_jcc (C := C) (s := { X with flags := f }) (by decide) hjcc
        (condition_nz hz)
      have hhanded := (Handed.self X).flags f
      obtain ⟨X', hsteps, hafter⟩ := ih (X := { X with flags := f }) hrest
      have hsize : codeSize (.bytes (groupBytes g) :: jcc 0x5 Label.hoist) =
          (groupBytes g).length + 6 := by
        simp [Piece.size]
      rw [List.any_cons, List.flatMap_cons, codeSize_append, hsize]
      rw [hsize, ← add_ofNat_add] at hsteps
      cases htest : StaticMap.testGroup X.mem (X.reg r14) g with
      | true =>
          rw [htest] at htwo
          refine ⟨_, .tail (.single hone) ?_, hhanded⟩
          simpa using htwo
      | false =>
          rw [htest] at htwo
          rw [← add_ofNat_add, ← add_ofNat_add]
          exact ⟨X', .head hone (.head htwo hsteps), hhanded.trans hafter⟩

/-! ## The call of `jit_copy` -/

theorem callRax_decodes (rest : List Byte) :
    decodeExtra (callRax ++ rest) = some (.call rax, rest) := rfl

theorem timesNineteen_decodes (rest : List Byte) :
    decode (timesNineteen ++ rest) = none ∧
      decodeExtra (timesNineteen ++ rest) = some (.imul 1 (.reg rax) 19, rest) :=
  ⟨rfl, rfl⟩

/-- A register has a new value, memory and the others stay. -/
structure Sets (X : X86.State) (r : X86.Reg) (v : Word) (X' : X86.State) : Prop where
  reg : X'.reg = Function.update X.reg r v
  mem : X'.mem = X.mem

theorem step_aluImm_sub (r : X86.Reg) (v : BitVec 32) (hheld : Holds X.mem a (aluImm 5 r v)) :
    ∃ X', Step C ⟨a, X⟩ ⟨a + BitVec.ofNat 64 (aluImm 5 r v).length, X'⟩ ∧
      Sets X r (X.reg r - v.signExtend 64) X' :=
  ⟨_, step_request (q := .aluImm 5 r v) (Or.inr (Or.inr rfl)) hheld
    (@binary_reg .sub X r (v.signExtend 64) rfl), rfl, rfl⟩

theorem step_subRr (dst src : X86.Reg) (hheld : Holds X.mem a (subRr dst src)) :
    ∃ X', Step C ⟨a, X⟩ ⟨a + BitVec.ofNat 64 (subRr dst src).length, X'⟩ ∧
      Sets X dst (X.reg dst - X.reg src) X' :=
  ⟨_, step_request (q := .subRr dst src) trivial hheld
    (@binary_reg .sub X dst (X.reg src) rfl), rfl, rfl⟩

theorem step_testRr (r : X86.Reg) (hheld : Holds X.mem a (testRr r r)) :
    ∃ f, Step C ⟨a, X⟩ ⟨a + BitVec.ofNat 64 (testRr r r).length, { X with flags := f }⟩ ∧
      f.zf = some (decide (X.reg r = 0)) := by
  refine ⟨_, step_request (q := .testRr r r) trivial hheld
    (@binary_compare .test X r (X.reg r) rfl), ?_⟩
  have hself : X.reg r &&& X.reg r = X.reg r := BitVec.and_self
  have hzero : (Binary.flags .test (X.reg r) (X.reg r) X.flags).zf =
      some (decide (X.reg r &&& X.reg r = 0)) := rfl
  rw [hzero, hself]

/-- The processor when it calls `jit_copy`. -/
def copyEntry (b : Parts) (desc : Word) (X : X86.State) : X86.State :=
  ((X.set 7 desc).set 6 (X.reg rbp)).set rax b.host.jitCopy

theorem copy_calls {desc : Word} (hcall : C b.host.jitCopy (copyEntry b desc X) X')
    (hlaid : Laid X.mem place a (b.copyCode desc)) :
    Steps C ⟨a, X⟩
      ⟨a + BitVec.ofNat 64 (copyArguments desc b.host.jitCopy).length + 2, X'⟩ := by
  obtain ⟨hargs, hcallRax, -⟩ := hlaid
  unfold copyArguments at hargs hcallRax ⊢
  rw [holds_append, holds_append] at hargs
  obtain ⟨⟨hdesc, hbudget⟩, htarget⟩ := hargs
  have hone := step_movImm (C := C) desc hdesc
  have htwo := step_movRr (C := C) (X := X.set 7 desc) (r := 6) rbp hbudget
  have hkept : (X.set 7 desc).reg rbp = X.reg rbp := by simp [State.set, rbp]
  rw [hkept] at htwo
  rw [List.length_append, ← add_ofNat_add] at htarget
  have hthree := step_movImm (C := C) (X := (X.set 7 desc).set 6 (X.reg rbp))
    b.host.jitCopy htarget
  have hentry : (copyEntry b desc X).reg rax = b.host.jitCopy := by simp [copyEntry, State.set]
  rw [← hentry] at hcall
  have hfour := call_of_decodes (s := copyEntry b desc X) hcallRax (by decide) callRax_decodes hcall
  have hlen : callRax.length = 2 := rfl
  refine .tail (.tail (.tail (.single hone) htwo) hthree) ?_
  simpa [add_ofNat_add, Nat.add_assoc, hlen, copyEntry] using hfour

theorem step_timesNineteen (hheld : Holds X.mem a timesNineteen) :
    ∃ X', Step C ⟨a, X⟩ ⟨a + BitVec.ofNat 64 timesNineteen.length, X'⟩ ∧
      Sets X 1 (X.reg rax * 19) X' := by
  obtain ⟨X', hrun, hsets⟩ : ∃ X', X.imul 1 (.reg rax) 19 = some X' ∧
      Sets X 1 (X.reg rax * 19) X' := by
    rw [State.imul, get_reg]
    exact ⟨_, rfl, rfl, rfl⟩
  exact ⟨X', step_imul hheld (by decide) (fun rest => (timesNineteen_decodes rest).1)
    (fun rest => (timesNineteen_decodes rest).2) hrun, hsets⟩

/-- The rounds past the first are taken from the budget. -/
theorem rounds_steps (hlaid : Laid X.mem place a [.bytes timesNineteen, .bytes (aluImm 5 1 19),
      .bytes (subRr 5 1), .bytes (testRr 2 2)]) :
    ∃ X', Steps C ⟨a, X⟩ ⟨a + BitVec.ofNat 64 (timesNineteen.length +
        (aluImm 5 1 19).length + (subRr 5 1).length + (testRr 2 2).length), X'⟩ ∧
      Handed X X' X.mem (X.reg rbp - (X.reg rax * 19 - 19)) ∧
      X'.flags.zf = some (decide (X.reg 2 = 0)) := by
  obtain ⟨hmul, hsub, htake, htest, -⟩ := hlaid
  obtain ⟨X₁, hone, hset₁⟩ := step_timesNineteen (C := C) hmul
  rw [← hset₁.mem] at hsub htake htest
  obtain ⟨X₂, htwo, hset₂⟩ := step_aluImm_sub (C := C) 1 19 hsub
  rw [← hset₂.mem] at htake htest
  obtain ⟨X₃, hthree, hset₃⟩ := step_subRr (C := C) 5 1 htake
  rw [← hset₃.mem] at htest
  obtain ⟨f, hfour, hz⟩ := step_testRr (C := C) 2 htest
  have hreg : X₃.reg = Function.update (Function.update X.reg 1 (X.reg rax * 19 - 19)) 5
      (X.reg rbp - (X.reg rax * 19 - 19)) := by
    have h19 : (19#32).signExtend 64 = 19 := by decide
    rw [hset₃.reg, hset₂.reg, hset₁.reg]
    simp [rbp, h19]
  have hmem : X₃.mem = X.mem := hset₃.mem.trans (hset₂.mem.trans hset₁.mem)
  rw [hreg] at hz
  simp only [← add_ofNat_add]
  refine ⟨{ X₃ with flags := f }, .tail (.tail (.tail (.single hone) htwo) hthree) hfour, ?_, ?_⟩
  · constructor <;> simp [hmem, hreg, rbp, rsp, r12, r14, r15]
  · simpa using hz

theorem past_jcc {ps : Code} (c : ℕ) (l : Label) :
    a + BitVec.ofNat 64 (codeSize ps) + 6 = a + BitVec.ofNat 64 (codeSize (ps ++ jcc c l)) := by
  rw [codeSize_append, codeSize_jcc, ← add_ofNat_add]
  rfl

/-- After the call: what was copied is taken from the budget past the first round, and the
block is entered again, or left if the loop is done. -/
theorem copy_returns {desc : Word} (hlaid : Laid X.mem place a (b.copyCode desc)) :
    ∃ X', Steps C
        ⟨a + BitVec.ofNat 64 (copyArguments desc b.host.jitCopy).length + 2, X⟩
        ⟨if X.reg rax = 0 then a + BitVec.ofNat 64 (codeSize (b.copyCode desc))
          else if X.reg 2 = 0 then place .entry else place (.stub 0), X'⟩ ∧
      Handed X X' X.mem
        (if X.reg rax = 0 then X.reg rbp else X.reg rbp - (X.reg rax * 19 - 19)) := by
  obtain ⟨hcode, hnone, -⟩ := laid_append.mp hlaid
  obtain ⟨hcode, hentry⟩ := laid_append.mp hcode
  obtain ⟨hcode, hdone⟩ := laid_append.mp hcode
  obtain ⟨hcode, hrounds⟩ := laid_append.mp hcode
  obtain ⟨⟨-, -, htest, -⟩, hzero⟩ := laid_append.mp hcode
  have hcall : BitVec.ofNat 64 callRax.length = 2 := rfl
  rw [hcall] at htest
  obtain ⟨f, hone, hz⟩ := step_testRr (C := C) rax htest
  have htwo := step_jcc (C := C) (s := { X with flags := f }) (by decide) hzero
    (condition_z hz)
  obtain ⟨X', hsteps, hhanded, hz'⟩ := rounds_steps (C := C)
    (X := { X with flags := f }) hrounds
  rw [← hhanded.mem] at hdone hentry
  have hthree := step_jcc (C := C) (by decide) hdone (condition_nz hz')
  have hfour := step_jmp (C := C) hentry
  have hfirst : a + BitVec.ofNat 64 (copyArguments desc b.host.jitCopy).length + 2 +
      BitVec.ofNat 64 (testRr rax rax).length = a + BitVec.ofNat 64 (codeSize
        ([.bytes (copyArguments desc b.host.jitCopy), .bytes callRax, .bytes (testRr rax rax)] :
          Code)) := by
    simp [Piece.size, ← add_ofNat_add, add_assoc]
    rfl
  rw [← hfirst] at htwo
  by_cases hrax : X.reg rax = 0
  · rw [if_pos hrax, if_pos hrax]
    have hend : place .none = a + BitVec.ofNat 64 (codeSize (b.copyCode desc)) := by
      rw [hnone]
      simp [copyCode, Piece.size]
    rw [decide_eq_true hrax, hend] at htwo
    exact ⟨_, .tail (.single hone) htwo, (Handed.self X).flags f⟩
  · rw [if_neg hrax, if_neg hrax]
    rw [decide_eq_false hrax, hfirst, if_neg Bool.false_ne_true, past_jcc] at htwo
    have hsize : timesNineteen.length + (aluImm 5 1 19).length + (subRr 5 1).length +
        (testRr 2 2).length = codeSize ([.bytes timesNineteen, .bytes (aluImm 5 1 19),
          .bytes (subRr 5 1), .bytes (testRr 2 2)] : Code) := by
      simp [Piece.size, Nat.add_assoc]
    rw [hsize, add_ofNat_add, ← codeSize_append] at hsteps
    rw [hfirst] at hone
    by_cases hrdx : X.reg 2 = 0
    · rw [if_pos hrdx]
      rw [decide_eq_true hrdx, Bool.not_true, if_neg Bool.false_ne_true, past_jcc] at hthree
      exact ⟨X', .head hone (.head htwo ((hsteps.tail hthree).tail hfour)),
        ((Handed.self X).flags f).trans hhanded⟩
    · rw [if_neg hrdx]
      rw [decide_eq_false hrdx] at hthree
      exact ⟨X', .head hone (.head htwo (hsteps.tail hthree)),
        ((Handed.self X).flags f).trans hhanded⟩

end BlockCode
end SubleqEmu
