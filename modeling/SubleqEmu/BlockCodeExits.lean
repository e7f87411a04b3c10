import SubleqEmu.BlockCodeBody

/-!
# Ways out of a block

The code that a block is left through: the store held back, the instructions given back to
the budget, and the jump to `jit_exit` or to another block.
-/

namespace SubleqEmu
namespace BlockCode

open X86 Emitter ByteMemory EmitterBytes BlockBuffers Parts
open CopyLoop (insnAt)
open Machine (Insn Pending Precise Smc Stub Maps)
open Translator (stubStore leave)

attribute [local instance] X86.neZero_sixteen BlockBuffers.neZero_eleven

variable {b : Parts} {maps : Maps} {M M' : Machine.State} {X X' X'' : X86.State} {size k : ℕ}
  {a x eip info : Word} {place : Label → Word} {back : BitVec 32} {r : X86.Reg}
  {C : Word → X86.State → X86.State → Prop} {m : Memory} {s : Smc} {t : Stub}

def rbp : X86.Reg := 5

theorem allocRegs_ne_rbp : ∀ r : Machine.Reg, allocRegs r ≠ rbp := by
  decide

/-! ## Stores held back -/

theorem stubValue_straight (useMovbe : Bool) (v : Machine.CVal) (t : Machine.Reg)
    (base : Machine.Base) (disp : BitVec 32) :
    ∀ i ∈ Translator.stubValue useMovbe v t base disp, Straight i := by
  cases v <;> cases useMovbe <;> simp [Translator.stubValue, Straight]

theorem stubStore_straight (useMovbe : Bool) (p : Pending) (keep : Option Machine.Reg) :
    ∀ i ∈ stubStore useMovbe p keep, Straight i := by
  obtain ⟨v, y⟩ := p
  by_cases hv : v = .none
  · subst hv
    simp [stubStore]
  · obtain ⟨pre, base, disp, hop, heq⟩ := Translator.stubStore_eq (a := y) useMovbe keep hv
    rw [heq]
    intro i hi
    rcases List.mem_append.mp hi with hpre | hvalue
    · split_ifs at hop
      · obtain ⟨rfl, -⟩ := Prod.mk.inj hop
        cases hpre
      · obtain ⟨rfl, -⟩ := Prod.mk.inj hop
        rw [List.mem_singleton.mp hpre]
        trivial
    · exact stubValue_straight useMovbe v _ base disp i hvalue

/-! ## Into the dispatcher -/

/-- What the processor leaves for `jit_exit`, or for another block. -/
structure Handed (X X' : X86.State) (mem : Memory) (budget : Word) : Prop where
  mem : X'.mem = mem
  budget : X'.reg rbp = budget
  stack : X'.reg rsp = X.reg rsp
  exit : X'.reg r12 = X.reg r12
  maps : X'.reg r14 = X.reg r14
  bias : X'.reg r15 = X.reg r15

/-- Where a block hands over to `jit_exit`, with the program's place and why. -/
structure HandedBack (X X' : X86.State) (mem : Memory) (budget eip info : Word) : Prop
    extends Handed X X' mem budget where
  eip : X'.reg r13 = eip
  info : X'.reg rbx = info

theorem Follows.handed (h : Follows size m M X') (hspare : Spares X X') :
    Handed X X' M.mem (X.reg rbp) where
  mem := h.agrees.mem
  budget := hspare rbp fun r => (allocRegs_ne_rbp r).symm
  stack := hspare rsp fun r => (allocRegs_ne r).1.symm
  exit := hspare r12 fun r => (allocRegs_ne r).2.1.symm
  maps := spares_r14 hspare
  bias := hspare r15 fun r => (allocRegs_ne r).2.2.2.symm

theorem Handed.trans {mem mem' : Memory} {n n' : Word} (h : Handed X X' mem n)
    (h' : Handed X' X'' mem' n') : Handed X X'' mem' n' :=
  ⟨h'.mem, h'.budget, h'.stack.trans h.stack, h'.exit.trans h.exit, h'.maps.trans h.maps,
    h'.bias.trans h.bias⟩

theorem Handed.set {mem : Memory} {n : Word} (h : Handed X X' mem n) (v : Word)
    (hr : r ∉ [rbp, rsp, r12, r14, r15]) : Handed X (X'.set r v) mem n := by
  simp only [List.mem_cons, List.not_mem_nil, or_false, not_or] at hr
  obtain ⟨h₁, h₂, h₃, h₄, h₅⟩ := hr
  exact {
    mem := h.mem
    budget := by simp [State.set, Ne.symm h₁, h.budget]
    stack := by simp [State.set, Ne.symm h₂, h.stack]
    exit := by simp [State.set, Ne.symm h₃, h.exit]
    maps := by simp [State.set, Ne.symm h₄, h.maps]
    bias := by simp [State.set, Ne.symm h₅, h.bias] }

theorem step_jmpR (hheld : Holds X.mem a (jmpR r)) : Step C ⟨a, X⟩ ⟨X.reg r, X⟩ := by
  refine step_of_decodes hheld (length_request (.jmpR r)) (fun _ => jmpR_decodes r) ?_
  simp [Request.meaning, Instr.run, get_reg]

theorem step_movRr (y : X86.Reg) (hheld : Holds X.mem a (movRr r y)) :
    Step C ⟨a, X⟩ ⟨a + BitVec.ofNat 64 (movRr r y).length, X.set r (X.reg y)⟩ :=
  step_request (q := .movRr r y) trivial hheld (@binary_reg .mov X r (X.reg y) rfl)

theorem step_movImm (v : Word) (hheld : Holds X.mem a (movImm r v)) :
    Step C ⟨a, X⟩ ⟨a + BitVec.ofNat 64 (movImm r v).length, X.set r v⟩ :=
  step_request (q := .movImm r v) trivial hheld (movImm_step X r v)

/-- Instructions that were not run. -/
theorem step_giveBack (back : BitVec 32) (hheld : Holds X.mem a (giveBack back)) :
    ∃ X', Step C ⟨a, X⟩ ⟨a + BitVec.ofNat 64 (giveBack back).length, X'⟩ ∧
      Handed X X' X.mem (X.reg rbp + back.signExtend 64) ∧ ∀ r ≠ rbp, X'.reg r = X.reg r := by
  have hstep := @binary_reg .add X rbp (back.signExtend 64) rfl
  refine ⟨_, step_request (q := .aluImm 0 rbp back) (Or.inl rfl) hheld hstep, ?_, fun r hr => ?_⟩
  · constructor <;> simp [State.set, Binary.value, rbp, rsp, r12, r14, r15]
  · simp [State.set, hr]

theorem Handed.self (X : X86.State) : Handed X X X.mem (X.reg rbp) :=
  ⟨rfl, rfl, rfl, rfl, rfl, rfl⟩

theorem handedBack_set (X : X86.State) (eip info : Word) :
    HandedBack X ((X.set r13 eip).set rbx info) X.mem (X.reg rbp) eip info where
  toHanded := ((Handed.self X).set eip (r := r13) (by decide)).set info (r := rbx) (by decide)
  eip := by simp [State.set, r13, rbx]
  info := by simp [State.set]

/-- The end of every way out. -/
theorem exits_at (hinfo : Holds X.mem a (movImm rbx info))
    (hjump : Holds X.mem (a + BitVec.ofNat 64 (movImm rbx info).length) (jmpR r12)) :
    Steps C ⟨a, X⟩ ⟨X.reg r12, X.set rbx info⟩ := by
  have hone := step_movImm (C := C) info hinfo
  have htwo := step_jmpR (C := C) (X := X.set rbx info) hjump
  have hexit := ((Handed.self X).set info (r := rbx) (by decide)).exit
  rw [hexit] at htwo
  exact .tail (.single hone) htwo

theorem HandedBack.after {mem mem' : Memory} {n n' : Word} (h : HandedBack X' X'' mem' n' eip info)
    (h' : Handed X X' mem n) : HandedBack X X'' mem' n' eip info :=
  ⟨h'.trans h.toHanded, h.eip, h.info⟩

theorem gives_back_exits (h : Follows size m M X)
    (hready : Ready size m place a ([.bytes (giveBack back)] ++
      [movImm r13 eip, movImm rbx info, jmpR r12].map .bytes)) :
    ∃ X', Steps C ⟨a, X⟩ ⟨X.reg r12, X'⟩ ∧
      HandedBack X X' M.mem (X.reg rbp + back.signExtend 64) eip info := by
  obtain ⟨hback, hrest⟩ := laid_append.mp (h.laid hready)
  obtain ⟨X₁, hone, hhanded, -⟩ := step_giveBack (C := C) back hback.1
  obtain ⟨heip, hinfo, hjump, -⟩ := hrest
  rw [← hhanded.mem] at heip hinfo hjump
  have htwo := step_movImm (C := C) eip heip
  have hsteps := exits_at (C := C) (X := X₁.set r13 eip) hinfo hjump
  have hexit := handedBack_set X₁ eip info
  have hr12 := ((Handed.self X₁).set eip (r := r13) (by decide)).exit
  rw [hr12, hhanded.exit] at hsteps
  rw [hhanded.mem, hhanded.budget, h.agrees.mem] at hexit
  exact ⟨_, .head hone (.head htwo hsteps), hexit.after hhanded⟩

/-! ## Ways out of line -/

theorem leave_smc {useMovbe : Bool} {start : Word}
    (h : leave maps useMovbe start (.smc s) M = some (M', eip)) :
    exec (Machine.step maps) (stubStore useMovbe s.pend none) M = .run M' ∧
      eip = insnAt start s.idx := by
  rw [leave] at h
  cases hexec : exec (Machine.step maps) (stubStore useMovbe s.pend none) M with
  | run M₁ =>
      rw [hexec] at h
      cases h
      exact ⟨rfl, rfl⟩
  | exit o M₁ => rw [hexec] at h; cases h
  | stuck => rw [hexec] at h; cases h

theorem leave_stub {useMovbe : Bool} {start : Word}
    (h : leave maps useMovbe start (.stub t) M = some (M', eip)) :
    exec (Machine.step maps) (stubStore useMovbe t.pend (if t.dyn then t.creg else none)) M =
        .run M' ∧
      if t.dyn then ∃ r, t.creg = some r ∧ eip = M'.reg r else eip = t.target := by
  rw [leave] at h
  cases hexec : exec (Machine.step maps)
      (stubStore useMovbe t.pend (if t.dyn then t.creg else none)) M with
  | run M₁ =>
      rw [hexec] at h
      simp only at h
      split_ifs at h ⊢ with hdyn
      · obtain ⟨r, hr, heq⟩ := Option.map_eq_some_iff.mp h
        cases heq
        exact ⟨rfl, r, hr, rfl⟩
      · cases h
        exact ⟨rfl, rfl⟩
  | exit o M₁ => rw [hexec] at h; cases h
  | stuck => rw [hexec] at h; cases h

/-- The store held back, where a stub begins with it. -/
theorem follows_stubStore {keep : Option Machine.Reg} {p : Pending} (h : Follows size m M X)
    (hready : Ready size m place a [.bytes (storeBytes b.host b.useMovbe p keep)])
    (hexec : exec (Machine.step maps) (stubStore b.useMovbe p keep) M = .run M')
    (hdawn : InDawn size M'.stores) :
    Lands C size m ⟨a, X⟩
      (a + BitVec.ofNat 64 (storeBytes b.host b.useMovbe p keep).length) M' :=
  steps_straight h (stubStore_straight b.useMovbe p keep) hready.laid.1 hready.beyond hexec hdawn

theorem smcTail_exits (h : Follows size m M X)
    (hready : Ready size m place a ((b.smcTail s).map .bytes))
    (hleave : leave maps b.useMovbe b.start (.smc s) M = some (M', eip))
    (hdawn : InDawn size M'.stores) :
    ∃ X', Steps C ⟨a, X⟩ ⟨X.reg r12, X'⟩ ∧ HandedBack X X' M'.mem
      (X.reg rbp + (b.n - BitVec.ofNat 32 s.idx).signExtend 64) eip 1 := by
  obtain ⟨hexec, rfl⟩ := leave_smc hleave
  have hcode : ((b.smcTail s).map .bytes : Code) =
      [.bytes (storeBytes b.host b.useMovbe s.pend none)] ++
        ([.bytes (giveBack (b.n - BitVec.ofNat 32 s.idx))] ++
          [movImm r13 (insnAt b.start s.idx), movImm rbx 1, jmpR r12].map .bytes) := rfl
  rw [hcode] at hready
  obtain ⟨hstore, hrest⟩ := hready.append
  obtain ⟨X₁, hsteps, hfollow, hspare⟩ := follows_stubStore (C := C) h hstore hexec hdawn
  have hhanded := hfollow.handed hspare
  obtain ⟨X₂, hsteps', hexit⟩ := gives_back_exits (C := C) hfollow hrest
  rw [hhanded.exit] at hsteps'
  rw [hhanded.budget] at hexit
  exact ⟨X₂, hsteps.trans hsteps', hexit.after hhanded⟩

/-! ## Jumps that can be linked -/

theorem leaSite_decodes (target : Word) (rest : List Byte) :
    decode (leaSite target ++ rest) = some (.lea .qword rbx ⟨.rip, none,
      (BitVec.ofInt 32 (-((movImm r13 target).length + 11))).signExtend 64⟩, rest) := by
  generalize hd : BitVec.ofInt 32 (-((movImm r13 target).length + 11) : ℤ) = d
  have hbytes : leaSite target ++ rest =
      rex 1 rbx 0 0 ++ e8 0x8d ++ (e8 0x1d ++ (littleEndian 4 d.toNat ++ rest)) := by
    rw [leaSite, hd]
    rfl
  have hfields : fields (BitVec.ofNat 8 0x1d) = ⟨0, 3, 5⟩ := by decide
  have hdisp : takeSigned 4 (littleEndian 4 d.toNat ++ rest) = some (d.signExtend 64, rest) :=
    takeSigned_littleEndian 4 d rest
  have hmem : takeMem ⟨true, high rbx, high 0, high 0⟩ ⟨0, 3, 5⟩ (littleEndian 4 d.toNat ++ rest) =
      some (⟨.rip, none, d.signExtend 64⟩, rest) := by
    simp [takeMem, hdisp]
  rw [hbytes]
  refine (decode_one true rbx 0 0 (by decide) (by decide) (by decide)).trans ?_
  have hmodrm : takeModRM ⟨true, high rbx, high 0, high 0⟩
      (e8 0x1d ++ (littleEndian 4 d.toNat ++ rest)) =
      some (⟨3, rbx, .mem ⟨.rip, none, d.signExtend 64⟩⟩, rest) := by
    rw [e8, List.singleton_append, takeModRM_cons _ hfields (by decide), hmem]
    rfl
  have hone : ∀ bs, decodeOne ⟨true, high rbx, high 0, high 0⟩ 0x8d bs =
      decodeMem ⟨true, high rbx, high 0, high 0⟩ (.lea .qword) bs := fun _ => rfl
  rw [hone, decodeMem, hmodrm]
  rfl

theorem length_leaSite (target : Word) : (leaSite target).length = 7 := by
  simp [leaSite, e8, e32]

theorem step_leaSite (target : Word) (hheld : Holds X.mem a (leaSite target)) :
    Step C ⟨a, X⟩ ⟨a + BitVec.ofNat 64 7,
      X.set rbx (a - BitVec.ofNat 64 (movImm r13 target).length - 4)⟩ := by
  have hlen : (leaSite target).length ≤ 15 := by
    rw [length_leaSite]
    decide
  have hten : (movImm r13 target).length ≤ 10 := length_movImm r13 target
  have hdisp : (BitVec.ofInt 32 (-((movImm r13 target).length + 11))).signExtend 64 =
      -BitVec.ofNat 64 ((movImm r13 target).length + 11) := by
    generalize (movImm r13 target).length = n at hten
    interval_cases n <;> rfl
  refine step_of_decodes hheld hlen (leaSite_decodes target) ?_
  rw [length_leaSite]
  have hsite : a + BitVec.ofNat 64 7 + -BitVec.ofNat 64 ((movImm r13 target).length + 11) =
      a - BitVec.ofNat 64 (movImm r13 target).length - 4 := by
    bv_omega
  simp only [Instr.run, State.setReg, hdisp, hsite]

/-- The jump goes to its target. -/
theorem slow_jumps {target : Word} (hlaid : Laid X.mem place a (slowCode k target)) :
    Step C ⟨a, X⟩ ⟨place (.target k), X⟩ :=
  step_jmp ⟨hlaid.1, hlaid.2.2.1, trivial⟩

/-- The code after it tells the dispatcher which jump it was. -/
theorem slow_exits {target : Word} (hlaid : Laid X.mem place a (slowCode k target)) :
    ∃ X', Steps C ⟨place (.slow k), X⟩ ⟨X.reg r12, X'⟩ ∧
      HandedBack X X' X.mem (X.reg rbp) target (place (.site k)) := by
  obtain ⟨-, hsite, -, hslow, heip, hlea, hjump, -⟩ := hlaid
  rw [← hslow] at heip hlea hjump
  have hone := step_movImm (C := C) target heip
  have htwo := step_leaSite (C := C) (X := X.set r13 target) target hlea
  have hback := handedBack_set X target (place (.slow k) +
    BitVec.ofNat 64 (movImm r13 target).length - BitVec.ofNat 64 (movImm r13 target).length - 4)
  rw [← length_leaSite target] at htwo
  have hthree := step_jmpR (C := C) (X := (X.set r13 target).set rbx
    (place (.slow k) + BitVec.ofNat 64 (movImm r13 target).length -
      BitVec.ofNat 64 (movImm r13 target).length - 4)) hjump
  rw [hback.exit] at hthree
  have hplace : place (.slow k) + BitVec.ofNat 64 (movImm r13 target).length -
      BitVec.ofNat 64 (movImm r13 target).length - 4 = place (.site k) := by
    rw [hslow, hsite]
    simp only [List.length_cons, List.length_nil]
    bv_omega
  rw [hplace] at htwo hthree hback
  exact ⟨_, .tail (.tail (.single hone) htwo) hthree, hback⟩

/-! ## Exits through a branch -/

/-- The instructions after the branch, which were not run. -/
theorem stub_gives_back (h : Follows size m M X)
    (hready : Ready size m place a
      (if b.unexec t ≠ 0 then [.bytes (giveBack (b.unexec t))] else [])) :
    ∃ X', Steps C ⟨a, X⟩ ⟨a + BitVec.ofNat 64 (codeSize
        (if b.unexec t ≠ 0 then [.bytes (giveBack (b.unexec t))] else [] : Code)), X'⟩ ∧
      Handed X X' M.mem (X.reg rbp + (b.unexec t).signExtend 64) ∧
      ∀ r ≠ rbp, X'.reg r = X.reg r := by
  have hmem := h.agrees.mem
  split_ifs at hready ⊢ with hzero
  · obtain ⟨X', hone, hhanded, hothers⟩ :=
      step_giveBack (C := C) (b.unexec t) (h.laid hready).1
    rw [hmem] at hhanded
    exact ⟨X', .single hone, hhanded, hothers⟩
  · have hself := Handed.self X
    rw [not_not] at hzero
    refine ⟨X, by simpa using Relation.ReflTransGen.refl, ?_, fun _ _ => rfl⟩
    rw [hmem] at hself
    simpa [hzero] using hself

/-- Up to the jump of an exit through a branch. -/
theorem stub_leaves (h : Follows size m M X)
    (hready : Ready size m place (place (.stub k)) (b.stubCode k t))
    (hleave : leave maps b.useMovbe b.start (.stub t) M = some (M', eip))
    (hdawn : InDawn size M'.stores) :
    ∃ x X', Steps C ⟨place (.stub k), X⟩ ⟨x, X'⟩ ∧
      Laid X'.mem place x (if t.dyn then dynCode t else slowCode k t.target) ∧
      Handed X X' M'.mem (X.reg rbp + (b.unexec t).signExtend 64) ∧
      ∀ r, X'.reg (allocRegs r) = M'.reg r := by
  obtain ⟨hexec, -⟩ := leave_stub hleave
  have hcode : b.stubCode k t = .label (.stub k) :: ([.bytes (b.stubStoreBytes t)] ++
      ((if b.unexec t ≠ 0 then [.bytes (giveBack (b.unexec t))] else []) ++
        (if t.dyn then dynCode t else slowCode k t.target))) := by
    simp [stubCode]
  rw [hcode] at hready
  obtain ⟨hstore, hrest⟩ := hready.label.2.append
  obtain ⟨hback, hlast⟩ := hrest.append
  obtain ⟨X₁, hsteps, hfollow, hspare⟩ := follows_stubStore (C := C) h hstore hexec hdawn
  obtain ⟨X₂, hsteps', hhanded, hothers⟩ := stub_gives_back (C := C) hfollow hback
  have hstored := hfollow.handed hspare
  rw [hstored.budget] at hhanded
  refine ⟨_, X₂, hsteps.trans hsteps', ?_, hstored.trans hhanded, fun r => ?_⟩
  · rw [hhanded.mem, ← hfollow.agrees.mem]
    exact hfollow.laid hlast
  · rw [hothers _ (allocRegs_ne_rbp r), hfollow.agrees.reg]

theorem stub_exits (h : Follows size m M X) (hdyn : t.dyn = true)
    (hready : Ready size m place (place (.stub k)) (b.stubCode k t))
    (hleave : leave maps b.useMovbe b.start (.stub t) M = some (M', eip))
    (hdawn : InDawn size M'.stores) :
    ∃ X', Steps C ⟨place (.stub k), X⟩ ⟨X.reg r12, X'⟩ ∧
      HandedBack X X' M'.mem (X.reg rbp + (b.unexec t).signExtend 64) eip 0 := by
  obtain ⟨x, X', hsteps, hlaid, hhanded, hregs⟩ :=
    stub_leaves (C := C) h hready hleave hdawn
  have heip := (leave_stub hleave).2
  rw [if_pos hdyn] at hlaid heip
  obtain ⟨r, hcreg, rfl⟩ := heip
  obtain ⟨hmov, hinfo, hjump, -⟩ := hlaid
  rw [hcreg, Option.getD_some] at hmov hinfo hjump
  have hone := step_movRr (C := C) _ hmov
  have hsteps' := exits_at (C := C) (X := X'.set r13 (X'.reg (allocRegs r))) hinfo hjump
  have hback := handedBack_set X' (X'.reg (allocRegs r)) 0
  have hr12 := ((Handed.self X').set (X'.reg (allocRegs r)) (r := r13) (by decide)).exit
  rw [hr12, hhanded.exit] at hsteps'
  rw [hregs, hhanded.mem, hhanded.budget] at hback
  rw [hregs] at hone hsteps'
  exact ⟨_, hsteps.trans (.head hone hsteps'), hback.after hhanded⟩

end BlockCode
end SubleqEmu
