import SubleqEmu.BlockBuffersModel
import SubleqEmu.CopyGuard
import SubleqEmu.EmitterSizes

/-!
# Blocks fit in their buffers

Bounds on what one call of `translate` writes, over all paths of the instructions in it,
and that the check before it leaves as much space in every state that is reached.
-/

namespace SubleqEmu
namespace BlockBuffers

open X86 Emitter ByteMemory EmitterBytes CopyGuard Translator
open CopyLoop (matchCopy insnAt)
open Machine (Insn Pending Precise Smc Stub)

variable {v : View} {host : Host} {J J' : Cache} {cpu cpu' : Cpu} {start a w : Word}
  {src : Source} {b : Block} {c : List Insn} {n n' : ℕ} {written : Word → Bool}

/-! ## Words and fields -/

/-- The pass ends at its limit at the latest. -/
theorem extent_le {copy : Bool} {limit i : ℕ} {e : ℕ × (Word → Bool)}
    (h : extent v copy start limit i written = some e) : e.1 ≤ i + limit := by
  induction limit generalizing i written with
  | zero =>
      cases h
      exact Nat.le_refl i
  | succ limit ih =>
      obtain ⟨rfl, -⟩ | ⟨-, written', -, rfl | h⟩ := extent_succ h
      · exact Nat.le_add_right i _
      · dsimp only
        omega
      · have hle := ih h
        omega

/-- A field of the block has its place in the table. -/
theorem index_lt (h : inBlock start a = true) : ((a - start) >>> 3).toNat < jitMaxBlock * 3 := by
  unfold inBlock jitMaxBlock at h
  rw [Bool.and_eq_true, decide_eq_true_eq, decide_eq_true_eq] at h
  obtain ⟨hle, hlt⟩ := h
  unfold jitMaxBlock
  bv_omega

theorem markWritten_lt {written' : Word → Bool}
    (hwritten : ∀ w, written w = true → w.toNat < jitMaxBlock * 3)
    (hmark : markWritten start a written = some written') (h : written' w = true) :
    w.toNat < jitMaxBlock * 3 := by
  obtain ⟨words, -, rfl⟩ := Option.map_eq_some_iff.mp hmark
  simp only [Bool.or_eq_true, List.any_eq_true, Bool.and_eq_true, decide_eq_true_eq] at h
  rcases h with h | ⟨x, -, hin, rfl⟩
  · exact hwritten w h
  · exact index_lt hin

theorem extent_written_lt {copy : Bool} {limit i : ℕ} {e : ℕ × (Word → Bool)}
    (hwritten : ∀ w, written w = true → w.toNat < jitMaxBlock * 3)
    (h : extent v copy start limit i written = some e) (hw : e.2 w = true) :
    w.toNat < jitMaxBlock * 3 := by
  induction limit generalizing i written with
  | zero =>
      cases h
      exact hwritten w hw
  | succ limit ih =>
      obtain ⟨rfl, -⟩ | ⟨-, written', hmark, hrest⟩ := extent_succ h
      · exact hwritten w hw
      have hwritten' : ∀ w, written' w = true → w.toNat < jitMaxBlock * 3 := by
        intro w hw
        split_ifs at hmark
        · exact hwritten w (Option.some.inj hmark ▸ hw)
        · exact markWritten_lt hwritten hmark hw
      obtain rfl | hrest := hrest
      · exact hwritten' w hw
      · exact ih hwritten' hrest

theorem length_addWords (ws hoist : List Word) :
    (ws.foldl (fun hoist w => if w ∈ hoist then hoist else hoist ++ [w]) hoist).length ≤
      hoist.length + ws.length := by
  induction ws generalizing hoist with
  | nil => exact Nat.le_refl _
  | cons w ws ih =>
      refine (ih _).trans ?_
      dsimp only
      split_ifs
      · simp
      · simp only [List.length_append, List.length_cons, List.length_nil]
        omega

/-- Two words for each instruction. -/
theorem length_hoistList (written : Word → Bool) (start : Word) (n : ℕ) :
    (hoistList v written start n).length ≤ n * 2 := by
  induction n with
  | zero => exact Nat.le_refl 0
  | succ n ih =>
      have hwords := length_spannedWords_le v.size (read v.mem (insnAt start n + 8))
      unfold hoistList at ih ⊢
      rw [List.range_succ, List.foldl_append, List.foldl_cons, List.foldl_nil]
      generalize List.foldl _ _ (List.range n) = hoist at ih ⊢
      dsimp only
      split_ifs
      · omega
      · refine (length_addWords _ _).trans ?_
        omega

theorem length_groups (done hoist : List Word) :
    (StaticMap.groups done hoist).length ≤ hoist.length := by
  induction hoist generalizing done with
  | nil => exact Nat.le_refl 0
  | cons w hoist ih =>
      rw [StaticMap.groups]
      split_ifs
      · exact (ih done).trans (Nat.le_succ _)
      · exact Nat.succ_le_succ (ih _)

/-! ## The instructions of a block -/

/-- The weight of an instruction of the program. -/
def insnWeight (W : Weights) : ℕ :=
  154 * W.heavy + 278 * W.light + 7 * W.shift + 2 * W.test + 2 * W.check + W.branch

theorem translateInsns_weighs (W : Weights) (src : Source) (start : Word) (i k : ℕ) :
    Weighs W.of (translateInsns src start i k) (k * insnWeight W) := by
  induction k generalizing i with
  | zero => exact .pure _
  | succ k ih =>
      rw [Nat.succ_mul]
      refine .bind (translateInsn_weighs src i _) (Nat.le_add_left _ _) fun ended => ?_
      split_ifs
      · exact .pure _
      · exact (ih (i + 1)).mono (Nat.le_of_eq (Nat.add_sub_cancel _ _).symm)

theorem translateBody_weighs (W : Weights) (src : Source) (start : Word) (n : ℕ) :
    Weighs W.of (translateBody src start n) (n * insnWeight W + W.branch) := by
  refine .bind (translateInsns_weighs W src start 0 n) (Nat.le_add_right _ _) fun r => ?_
  rw [Nat.add_sub_cancel_left]
  refine .bind (.onlyIf _ ?_) (Nat.le_refl _) fun _ => .pure _
  exact .quiet_bind snapPending_weighs fun pend => .emit _ (Nat.le_refl _)

theorem translateInsns_le {r : ℕ × Bool} {i k : ℕ}
    (h : translateInsns src start i k J = some (r, J', c)) : r.1 ≤ i + k := by
  induction k generalizing i J c with
  | zero =>
      rw [← (pure_eq_some.mp h).1]
      exact Nat.le_refl i
  | succ k ih =>
      obtain ⟨ended, J₁, c₁, c₂, -, hrest, rfl⟩ := bind_eq_some.mp h
      split_ifs at hrest
      · rw [← (pure_eq_some.mp hrest).1]
        exact Nat.add_le_add_left (by omega) i
      · exact (ih hrest).trans (by omega)

theorem translateBody_le (h : translateBody src start n J = some (n', J', c)) : n' ≤ n := by
  obtain ⟨r, J₁, c₁, c₂, hinsns, hrest, rfl⟩ := bind_eq_some.mp h
  obtain ⟨_, J₂, c₃, c₄, -, hpure, rfl⟩ := bind_eq_some.mp hrest
  rw [← (pure_eq_some.mp hpure).1]
  exact (translateInsns_le hinsns).trans (Nat.le_of_eq (Nat.zero_add n))

/-! ## Stubs and checks -/

def branches : Weights := ⟨0, 0, 0, 0, 0, 1⟩

def checks : Weights := ⟨0, 0, 0, 0, 1, 0⟩

theorem length_stubsOf (c : List Insn) : (stubsOf c).length = weight branches.of c := by
  induction c with
  | nil => rfl
  | cons i c ih =>
      rw [weight_cons, ← ih]
      cases i <;> simp [stubsOf, branches, Weights.of, Nat.add_comm]

theorem length_smcsOf (c : List Insn) : (smcsOf c).length = weight checks.of c := by
  induction c with
  | nil => rfl
  | cons i c ih =>
      rw [weight_cons, ← ih]
      cases i <;> simp [smcsOf, checks, Weights.of, Nat.add_comm]

/-- One exit for each instruction, and the one past the last. -/
theorem length_stubs_body (h : translateBody src start n J = some (n', J', c)) :
    (stubsOf c).length ≤ n + 1 := by
  have hweight := translateBody_weighs branches src start n h
  rw [length_stubsOf]
  have hinsn : insnWeight branches = 1 := rfl
  rw [hinsn, Nat.mul_one] at hweight
  exact hweight

theorem length_smcs_body (h : translateBody src start n J = some (n', J', c)) :
    (smcsOf c).length ≤ n * 2 :=
  (length_smcsOf c).trans_le (translateBody_weighs checks src start n h)

/-! ## Code -/

theorem length_watchTest (addr value : Word) : (watchTest addr value).length ≤ 34 := by
  have hvalue := length_movImm rax (ByteMemory.bswap value)
  have haddr := length_movImm 1 addr
  have hrex := length_rex 1 rax 0 r15
  have hrex' := length_rex 1 rax 0 1
  have hmem := length_memOperand rax r15 (Translator.int32 (addr - Machine.bias))
  have hmem' := length_memOperand rax 1 0
  unfold watchTest
  split_ifs <;> simp only [List.length_append, length_e8, length_jcc32] <;> omega

theorem length_groupTest (g : Word × BitVec 32) : (groupTest g).length ≤ 18 := by
  have hrex := length_rex 0 0 0 r14
  have hmem := length_memOperand 0 r14 (Translator.int32 (g.1 <<< 2))
  simp only [groupTest, List.length_append, length_e8, length_e32, length_jcc32]
  omega

theorem length_copyCall (desc jitCopy : Word) : (copyCall desc jitCopy).length ≤ 62 := by
  have hdesc := length_movImm 7 desc
  have hcopy := length_movImm rax jitCopy
  have hmov := length_rr 0x89 6 5
  have htest := length_rr 0x85 rax rax
  have hsub := length_rr 0x29 5 1
  have htest' := length_rr 0x85 2 2
  have halu := length_aluImm 5 1 19
  simp only [copyCall, movRr, testRr, subRr, List.length_append, length_e8, length_jcc32,
    length_jmp32]
  omega

theorem length_preciseTest (q : Precise) (second : Bool) :
    (preciseTest q second).length ≤ 33 := by
  have hlea := length_opMem 0x8d (allocRegs q.t1) (allocRegs q.rb) 7
  have hmov := length_rr 0x89 (allocRegs q.t1) (allocRegs q.rb)
  have hshr := length_shrRi (allocRegs q.t1) 3
  have hmov' := length_rr 0x89 (allocRegs q.t2) (allocRegs q.t1)
  have hshr' := length_shrRi (allocRegs q.t2) 6
  have hload := length_loadSib8 (allocRegs q.t2) r14 (allocRegs q.t2)
  have hbt := length_btRr (allocRegs q.t2) (allocRegs q.t1)
  cases second <;> simp only [preciseTest, movRr, if_true, if_false, Bool.false_eq_true,
    List.length_append, length_jcc32] <;> omega

theorem length_storeBytes (useMovbe : Bool) (p : Pending) (keep : Option Machine.Reg) :
    (storeBytes host useMovbe p keep).length ≤ 36 := by
  refine (length_code _).trans ?_
  unfold stubStore
  obtain ⟨val, addr⟩ := p
  cases val <;> cases useMovbe <;> cases fitsDisp addr <;> simp [byteWeights, Weights.of]

theorem length_smcStub (useMovbe : Bool) (n : BitVec 32) (s : Smc) :
    (smcStub host useMovbe start n s).length ≤ 137 := by
  have hstore := @length_storeBytes host useMovbe s.pend none
  have hback := length_aluImm 0 5 (n - BitVec.ofNat 32 s.idx)
  have hexit := length_exitTo (insnAt start s.idx) 1
  unfold smcStub giveBack
  cases s.precise with
  | none =>
      simp only [List.length_append, List.length_nil]
      omega
  | some q =>
      have hfirst := length_preciseTest q false
      have hsecond := length_preciseTest q true
      simp only [List.length_append, length_jmp32]
      omega

theorem length_slowPath (target : Word) : (slowPath target).length ≤ 25 := by
  have heip := length_movImm r13 target
  have hjmp := length_jmpR r12
  simp only [slowPath, List.length_append, length_e8, length_e32, length_jmp32]
  omega

theorem length_exitStub (useMovbe : Bool) (n : BitVec 32) (s : Stub) :
    (exitStub host useMovbe n s).length ≤ 68 := by
  have hkeep := @length_storeBytes host useMovbe s.pend s.creg
  have hfree := @length_storeBytes host useMovbe s.pend none
  have hback := length_aluImm 0 5 (n - BitVec.ofNat 32 s.idx - 1)
  have hslow := length_slowPath s.target
  have hmov := length_rr 0x89 r13 (allocRegs (s.creg.getD 0))
  have hzero := length_movImm rbx 0
  have hjmp := length_jmpR r12
  simp only [exitStub, giveBack, movRr, List.length_append]
  split_ifs <;> (try simp only [List.length_append, List.length_nil]) <;> omega

theorem length_flatMap_le {α β : Type} {f : α → List β} {k : ℕ} (h : ∀ x, (f x).length ≤ k)
    (l : List α) : (l.flatMap f).length ≤ l.length * k := by
  induction l with
  | nil => exact Nat.zero_le _
  | cons x l ih =>
      have hx := h x
      rw [List.flatMap_cons, List.length_append, List.length_cons, Nat.succ_mul]
      omega

/-- The bytes of a block by the number of its tests, checks, exits and instructions. -/
theorem length_blockCode (useMovbe : Bool) (n : BitVec 32) (sites : List (Word × BitVec 32))
    (desc : Option Word) (body : List Insn) :
    (blockCode host useMovbe start n sites desc body).length ≤
      222 + 18 * sites.length + weight byteWeights.of body + 137 * (smcsOf body).length +
        68 * ((stubsOf body).length + 1) := by
  have hsub := length_aluImm 5 5 n
  have hback := length_aluImm 0 5 n
  have hexit := fun info => length_exitTo start info
  have hexit₀ := hexit 0
  have hexit₂ := hexit 2
  have hexit₃ := hexit 3
  have hsites := length_flatMap_le length_groupTest sites
  have hbody := @length_code host.pageOff body
  have hsmcs := length_flatMap_le (@length_smcStub host start useMovbe n) (smcsOf body)
  have hstubs := length_flatMap_le (@length_exitStub host useMovbe n)
    ((desc.elim [] fun _ => [copyStub start]) ++ stubsOf body)
  have hnumber : ((desc.elim [] fun _ => [copyStub start]) ++ stubsOf body).length ≤
      (stubsOf body).length + 1 := by
    cases desc <;> simp [Nat.add_comm]
  have hwatch : (host.watch.elim [] fun w => watchTest w.1 w.2).length ≤ 34 := by
    cases host.watch with
    | none => exact Nat.zero_le _
    | some w => exact length_watchTest w.1 w.2
  have hwatch' : (host.watch.elim [] fun _ => giveBack n ++ exitTo start 3).length ≤ 30 := by
    cases host.watch with
    | none => exact Nat.zero_le _
    | some w =>
        simp only [Option.elim_some, giveBack, List.length_append]
        omega
  have hcopy : (desc.elim [] fun d => copyCall d host.jitCopy).length ≤ 62 := by
    cases desc with
    | none => exact Nat.zero_le _
    | some d => exact length_copyCall d host.jitCopy
  have hhoist : (if sites = [] then [] else giveBack n ++ exitTo start 2).length ≤ 30 := by
    split_ifs
    · exact Nat.zero_le _
    · simp only [giveBack, List.length_append]
      omega
  unfold giveBack at hwatch' hhoist
  simp only [blockCode, giveBack, List.length_append, length_jcc32] at hnumber hstubs ⊢
  omega

/-! ## Space in the buffers -/

/-- The sizes that `jit_init` gives, and what is in use. -/
structure Cpu.Sized (J : Cpu) : Prop where
  blocks : 4096 ≤ J.maxBlocks
  metas : J.maxMeta = 16 * J.maxBlocks
  code : J.codeEnd = J.codeBase + 512 * J.maxBlocks
  base : J.codeBase ≤ J.codePtr
  ptr : J.codePtr ≤ J.codeEnd
  nblocks : J.nblocks ≤ J.maxBlocks
  nmeta : J.nmeta ≤ J.maxMeta

theorem Cpu.Sized.init {msize maxBytes blocks : Word} {k codeBase : ℕ}
    (h : StaticMap.maxBlocks msize k maxBytes = some blocks) :
    (Cpu.init codeBase blocks).Sized := by
  unfold StaticMap.maxBlocks at h
  rcases ite_eq_iff.mp h with ⟨-, h⟩ | ⟨hblocks, h⟩
  · cases h
  · have hlarge := (not_or.mp hblocks).2
    rw [Option.some.inj h, BitVec.lt_def, Nat.not_lt] at hlarge
    exact ⟨hlarge, rfl, rfl, Nat.le_refl _, Nat.le_add_right _ _, Nat.zero_le _, Nat.zero_le _⟩

theorem Cpu.Sized.flush (h : cpu.Sized) : cpu.flush.Sized where
  blocks := h.blocks
  metas := h.metas
  code := h.code
  base := Nat.le_refl _
  ptr := h.base.trans h.ptr
  nblocks := Nat.zero_le _
  nmeta := Nat.zero_le _

/-- The state that a block is made in. -/
structure Cpu.Room (J : Cpu) : Prop extends J.Sized where
  slack : J.codePtr + codeSlack ≤ J.codeEnd
  record : J.nblocks < J.maxBlocks
  words : J.nmeta + jitMaxBlock * 2 + 8 ≤ J.maxMeta

theorem Cpu.Sized.room_flush (h : cpu.Sized) : cpu.flush.Room := by
  have hblocks := h.blocks
  have hcode := h.code
  have hmetas := h.metas
  refine ⟨h.flush, ?_, ?_, ?_⟩
  · simp only [Cpu.flush, codeSlack]
    omega
  · exact Nat.lt_of_lt_of_le (by decide : 0 < 4096) hblocks
  · simp only [Cpu.flush, jitMaxBlock]
    omega

theorem Cpu.Sized.room (h : cpu.Sized) (hfull : ¬ cpu.full = true) : cpu.Room := by
  have hptr := h.ptr
  have hnblocks := h.nblocks
  simp only [Cpu.full, Bool.or_eq_true, decide_eq_true_eq, not_or] at hfull
  obtain ⟨⟨hslack, hne⟩, hmeta⟩ := hfull
  exact ⟨h, by omega, by omega, by omega⟩

theorem metaAlloc_of_le {words : ℕ} (h : cpu.nmeta + words ≤ cpu.maxMeta) :
    metaAlloc words cpu = (some cpu.nmeta, { cpu with nmeta := cpu.nmeta + words }) :=
  if_neg (Nat.not_lt.mpr h)

/-! ## One call -/

/-- Each record has its place. -/
structure Fits (J : Cpu) (start : Word) (b : Block) : Prop where
  insns : b.n ≤ jitMaxBlock
  record : b.record < J.maxBlocks
  stubs : b.stubs.length ≤ jitMaxBlock + 2
  smcs : b.smcs.length ≤ jitMaxBlock * 4
  hoist : b.hoist.length ≤ jitMaxBlock * 2
  sites : b.sites.length ≤ jitMaxBlock * 2
  /-- writes of `written`, and then what `is_dynamic` reads -/
  written : ∀ w, b.written w = true → w.toNat < jitMaxBlock * 3
  read : ∀ a, inBlock start a = true → ((a - start) >>> 3).toNat < jitMaxBlock * 3
  smask : ∀ i < b.n, ∀ f < 3, (i * 3 + f) / 64 < 3
  metas : ∀ m ∈ b.metas, m.isSome = true
  code : b.code.length ≤ codeSlack
  codeEnd : b.codeAt + b.code.length ≤ J.codeEnd

theorem Fits.of_flush (h : Fits cpu.flush start b) : Fits cpu start b := { h with }

/-- The code of a block, whatever `match_copy` found and the budget that is given back. -/
theorem code_fits {sites : List (Word × BitVec 32)} (hn : n ≤ jitMaxBlock)
    (hsites : sites.length ≤ n * 2) (h : translateBody src start n J = some (n', J', c))
    (host : Host) (useMovbe : Bool) (m : BitVec 32) (desc : Option Word) :
    (blockCode host useMovbe start m sites desc c).length ≤ codeSlack := by
  have hlength := @length_blockCode host start useMovbe m sites desc c
  have hweight := translateBody_weighs byteWeights src start n h
  have hinsn : insnWeight byteWeights = 3024 := rfl
  have hbranch : byteWeights.branch = 6 := rfl
  have hstubs := length_stubs_body h
  have hsmcs := length_smcs_body h
  rw [hinsn, hbranch] at hweight
  unfold jitMaxBlock at hn
  unfold codeSlack
  omega

theorem length_stubs (desc : Option Word) (c : List Insn) :
    ((desc.elim [] fun _ => [copyStub start]) ++ stubsOf c).length ≤ (stubsOf c).length + 1 := by
  cases desc <;> simp

theorem Cpu.Room.used (hroom : cpu.Room) {words bytes : ℕ}
    (hwords : words ≤ jitMaxBlock * 2 + 8) (hbytes : bytes ≤ codeSlack) :
    Cpu.Sized { cpu with
      nmeta := cpu.nmeta + words
      nblocks := cpu.nblocks + 1
      codePtr := cpu.codePtr + bytes } where
  blocks := hroom.blocks
  metas := hroom.metas
  code := hroom.code
  base := hroom.base.trans (Nat.le_add_right _ _)
  ptr := (Nat.add_le_add_left hbytes _).trans hroom.slack
  nblocks := hroom.record
  nmeta := by
    have hmeta := hroom.words
    dsimp only
    omega

theorem emitBlock_fits {loop : Bool} (hroom : cpu.Room) (hn : n ≤ jitMaxBlock)
    (hwritten : ∀ w, written w = true → w.toNat < jitMaxBlock * 3)
    (h : emitBlock v host J cpu start loop n written = some (b, cpu')) :
    Fits cpu start b ∧ cpu'.Sized := by
  have hhoist := @length_hoistList v written start n
  have hsites := (length_groups [] (hoistList v written start n)).trans hhoist
  have hwords := hroom.words
  have hslack := hroom.slack
  have halloc := @metaAlloc_of_le cpu (hoistList v written start n).length (by omega)
  have halloc' := @metaAlloc_of_le
    { cpu with nmeta := cpu.nmeta + (hoistList v written start n).length } 7 (by dsimp only; omega)
  unfold emitBlock at h
  dsimp only at h halloc'
  rw [halloc, halloc'] at h
  obtain ⟨⟨n', J', c⟩, hbody, heq⟩ := Option.map_eq_some_iff.mp h
  have hle := translateBody_le hbody
  have hstubs := length_stubs_body hbody
  have hsmcs := length_smcs_body hbody
  have hcode := code_fits hn hsites hbody host J.useMovbe (BitVec.ofNat 32 n')
  have hfits : ∀ (desc : Option Word) (metas : List (Option ℕ)),
      (∀ m ∈ metas, m.isSome = true) → Fits cpu start {
        n := n'
        record := cpu.nblocks
        written := written
        hoist := hoistList v written start n
        sites := StaticMap.groups [] (hoistList v written start n)
        stubs := (desc.elim [] fun _ => [copyStub start]) ++ stubsOf c
        smcs := smcsOf c
        metas := metas
        codeAt := cpu.codePtr
        code := blockCode host J.useMovbe start (BitVec.ofNat 32 n')
          (StaticMap.groups [] (hoistList v written start n)) desc c } := by
    intro desc metas hmetas
    have hall := @length_stubs start desc c
    have hbytes := hcode desc
    exact {
      insns := hle.trans hn
      record := hroom.record
      stubs := by dsimp only; omega
      smcs := by dsimp only; omega
      hoist := by dsimp only; omega
      sites := by dsimp only; omega
      written := hwritten
      read := fun _ => index_lt
      smask := by
        intro i hi f hf
        unfold jitMaxBlock at hn
        dsimp only at hi
        omega
      metas := hmetas
      code := hbytes
      codeEnd := (Nat.add_le_add_left hbytes _).trans hslack }
  by_cases hcopy : loop = true ∧ n = 19
  · simp only [if_pos hcopy] at heq
    cases heq
    have hboth : (hoistList v written start n).length + 7 ≤ jitMaxBlock * 2 + 8 := by omega
    exact ⟨hfits _ _ (by simp), hroom.used hboth (hcode _)⟩
  · simp only [if_neg hcopy] at heq
    cases heq
    exact ⟨hfits _ _ (by simp), hroom.used (by omega) (hcode _)⟩

theorem makeBlock_fits (hroom : cpu.Room) (h : makeBlock v host J cpu start = some (b, cpu')) :
    Fits cpu start b ∧ cpu'.Sized := by
  unfold makeBlock at h
  obtain ⟨e, hextent, h⟩ := Option.bind_eq_some_iff.mp h
  refine emitBlock_fits hroom ((extent_le hextent).trans ?_) (fun w hw => ?_) h
  · unfold jitMaxBlock
    split_ifs <;> omega
  · exact extent_written_lt (by simp) hextent hw

/-- The block fits where it is made, and the sizes are as before. -/
theorem translate_fits (hsized : cpu.Sized) (h : translate v host J cpu start = some (b, cpu')) :
    Fits cpu start b ∧ cpu'.Sized := by
  unfold translate at h
  split_ifs at h with hbad hfull
  · obtain ⟨hfits, hsized'⟩ := makeBlock_fits hsized.room_flush h
    exact ⟨hfits.of_flush, hsized'⟩
  · exact makeBlock_fits (hsized.room hfull) h

/-! ## Runs -/

/-- The states of a CPU's buffers from `jit_init` on: blocks are made, from whatever memory
and maps hold by then, and all of them dropped. -/
inductive Reaches (codeBase : ℕ) (blocks : Word) : Cpu → Prop
  | init : Reaches codeBase blocks (Cpu.init codeBase blocks)
  | translate {cpu cpu' : Cpu} {b : Block} (v : View) (host : Host) (J : Cache) (start : Word)
      (hreach : Reaches codeBase blocks cpu)
      (h : translate v host J cpu start = some (b, cpu')) : Reaches codeBase blocks cpu'
  | flush {cpu : Cpu} (hreach : Reaches codeBase blocks cpu) : Reaches codeBase blocks cpu.flush

theorem Reaches.sized {msize maxBytes blocks : Word} {k codeBase : ℕ}
    (hinit : StaticMap.maxBlocks msize k maxBytes = some blocks)
    (h : Reaches codeBase blocks cpu) : cpu.Sized := by
  induction h with
  | init => exact .init hinit
  | translate v host J start _ h ih => exact (translate_fits ih h).2
  | flush _ ih => exact ih.flush

/-- Whatever a CPU's buffers, memory, the maps and the clocks of the cache are when it
translates, all that it writes has its place. -/
theorem blocks_fit {msize maxBytes blocks : Word} {k codeBase : ℕ}
    (hinit : StaticMap.maxBlocks msize k maxBytes = some blocks)
    (hreach : Reaches codeBase blocks cpu) (h : translate v host J cpu start = some (b, cpu')) :
    Fits cpu start b :=
  (translate_fits (hreach.sized hinit) h).1

theorem emptyView_le : 0x100000 ≤ 2 ^ 47 := by decide

def emptyView : View := ⟨⟨0x100000, emptyView_le⟩, fun _ => 0, fun _ => false, fun _ => false⟩

/-- The first block of an empty memory: one instruction that jumps to itself. -/
theorem blocks_fit_zeros :
    ∃ b cpu, translate emptyView ⟨0, none, 0, 0⟩ (Cache.start true 0 0 0) (Cpu.init 0 0x40000) 0 =
        some (b, cpu) ∧
      b.stubs.length ≤ 66 ∧ b.code.length ≤ 0x40000 ∧ Fits (Cpu.init 0 0x40000) 0 b := by
  obtain ⟨⟨b, cpu⟩, heq⟩ := Option.isSome_iff_exists.mp
    (by decide +kernel : (translate emptyView ⟨0, none, 0, 0⟩ (Cache.start true 0 0 0)
      (Cpu.init 0 0x40000) 0).isSome = true)
  have hinit : StaticMap.maxBlocks 0x40000000 1 0x200000000 = some 0x40000 := by decide
  have hfits := blocks_fit hinit .init heq
  exact ⟨b, cpu, heq, hfits.stubs, hfits.code, hfits⟩

end BlockBuffers
end SubleqEmu
