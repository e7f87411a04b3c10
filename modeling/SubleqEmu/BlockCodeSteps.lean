import SubleqEmu.BlockCodeLayout
import SubleqEmu.EmitterSizes
import SubleqEmu.EmitterStores
import SubleqEmu.StaticMapTests

/-!
# Instructions of a block on the processor

Straight code and the tests for translated code, run from memory beyond Dawn's, which
the stores of a block leave alone.
-/

namespace SubleqEmu
namespace BlockCode

open X86 Emitter ByteMemory EmitterBytes BlockBuffers Parts
open Machine (Insn Pending Precise Smc Stub Maps)
open Translator (applyStores_append)

variable {maps : Maps} {M M' M'' : Machine.State} {X X' : X86.State} {i : Insn} {is : List Insn}
  {o : Machine.Exit} {size n : ℕ} {a : Word} {C : Word → X86.State → X86.State → Prop}
  {stores : List (Word × Word)} {m : Memory}

/-! ## Stores -/

/-- What an instruction does to memory is a store added. -/
structure Grows (M M' : Machine.State) : Prop where
  init : M'.init = M.init
  stores : M.stores <+: M'.stores

theorem Grows.refl (M : Machine.State) : Grows M M := ⟨rfl, List.prefix_refl _⟩

theorem Grows.trans (h : Grows M M') (h' : Grows M' M'') : Grows M M'' :=
  ⟨h'.init.trans h.init, h.stores.trans h'.stores⟩

theorem grows_put (M : Machine.State) (a v : Word) : Grows M (M.put a v) :=
  ⟨rfl, List.prefix_append _ _⟩

/-- Wherever instructions go. -/
def AtEnd (p : Machine.State → Prop) : Outcome Machine.State Machine.Exit → Prop
  | .run M => p M
  | .exit _ M => p M
  | .stuck => True

theorem checkWords_grows (s : Smc) (q : Precise) (M : Machine.State) :
    AtEnd (Grows M) (Machine.checkWords maps s q M) := by
  simp only [Machine.checkWords]
  split_ifs <;> exact ⟨rfl, List.prefix_refl _⟩

theorem step_grows (i : Insn) (M : Machine.State) : AtEnd (Grows M) (Machine.step maps i M) := by
  cases i with
  | store r base disp => exact grows_put M _ _
  | movbeStore r base disp => exact grows_put M _ _
  | storeImm disp v => exact grows_put M _ _
  | jnz s =>
      simp only [Machine.step]
      split
      · trivial
      · split_ifs
        · exact .refl M
        · split
          · exact .refl M
          · exact checkWords_grows s _ M
  | jle s =>
      simp only [Machine.step]
      split
      · trivial
      · split_ifs
        · exact .refl M
        · exact .refl M
  | _ => exact ⟨rfl, List.prefix_refl _⟩

theorem AtEnd.imp {p q : Machine.State → Prop} {r : Outcome Machine.State Machine.Exit}
    (h : AtEnd p r) (hpq : ∀ M, p M → q M) : AtEnd q r := by
  cases r with
  | run M => exact hpq M h
  | exit o M => exact hpq M h
  | stuck => trivial

theorem exec_grows (is : List Insn) (M : Machine.State) :
    AtEnd (Grows M) (exec (Machine.step maps) is M) := by
  induction is generalizing M with
  | nil => exact .refl M
  | cons i is ih =>
      have hstep := @step_grows maps i M
      rw [exec]
      cases h : Machine.step maps i M with
      | run M' =>
          rw [h] at hstep
          exact (ih M').imp fun _ hgrows => hstep.trans hgrows
      | exit o M' => rwa [h] at hstep
      | stuck => trivial

theorem exec_run_grows (h : exec (Machine.step maps) is M = .run M') : Grows M M' := by
  have hgrows := @exec_grows maps is M
  rwa [h] at hgrows

/-- Stores to Dawn's memory. -/
def InDawn (size : ℕ) (stores : List (Word × Word)) : Prop := ∀ s ∈ stores, s.1.toNat + 8 ≤ size

/-- The `n` bytes from `a` on are beyond it. -/
def Beyond (size n : ℕ) (a : Word) : Prop := size ≤ a.toNat ∧ a.toNat + n < 2 ^ 64

theorem InDawn.of_grows (h : Grows M M') (hdawn : InDawn size M'.stores) :
    InDawn size M.stores :=
  fun s hs => hdawn s (h.stores.subset hs)

theorem applyStores_beyond (h : InDawn size stores) (m : Memory) (ha : size ≤ a.toNat) :
    Machine.applyStores m stores a = m a := by
  induction stores generalizing m with
  | nil => rfl
  | cons s stores ih =>
      have hfirst := h s List.mem_cons_self
      refine (ih (fun x hx => h x (List.mem_cons_of_mem s hx)) _).trans ?_
      exact if_neg (by bv_omega)

theorem Beyond.le (h : Beyond size n a) {k : ℕ} (hk : k < n) :
    size ≤ (a + BitVec.ofNat 64 k).toNat := by
  obtain ⟨hlow, hhigh⟩ := h
  bv_omega

theorem Beyond.left {n' : ℕ} (h : Beyond size (n + n') a) : Beyond size n a :=
  ⟨h.1, by have := h.2; omega⟩

theorem Beyond.right {n' : ℕ} (h : Beyond size (n + n') a) :
    Beyond size n' (a + BitVec.ofNat 64 n) := by
  obtain ⟨hlow, hhigh⟩ := h
  constructor <;> bv_omega

theorem same_mem (hdawn : InDawn size M.stores) (h : Beyond size n a) :
    Same M.init M.mem a n :=
  fun _ hk => applyStores_beyond hdawn M.init (h.le hk)

/-! ## Straight code -/

/-- The processor agrees with the machine, which has started with `m` and has stored
only to Dawn's memory. -/
structure Follows (size : ℕ) (m : Memory) (M : Machine.State) (X : X86.State) : Prop where
  agrees : Agrees M X
  init : M.init = m
  dawn : InDawn size M.stores

theorem Follows.holds (h : Follows size m M X) {bs : List Byte} (hheld : Holds m a bs)
    (hbeyond : Beyond size bs.length a) : Holds X.mem a bs := by
  rw [h.agrees.mem]
  obtain rfl := h.init
  exact hheld.same (same_mem h.dawn hbeyond)

theorem Follows.next (h : Follows size m M X) (hgrows : Grows M M') (hagree : Agrees M' X')
    (hdawn : InDawn size M'.stores) : Follows size m M' X' :=
  ⟨hagree, hgrows.init.trans h.init, hdawn⟩

theorem length_request (q : Request) : q.bytes.length ≤ 15 := by
  cases q with
  | opMem op r base disp => exact (length_opMem _ _ _ _).trans (by decide)
  | movbeMem store r base disp => exact (length_movbeMem _ _ _ _).trans (by decide)
  | loadSib8 r base index => exact (length_loadSib8 _ _ _).trans (by decide)
  | cmpByteZero base index disp => exact (length_cmpByteZero _ _ _).trans (by decide)
  | testBitmap w => exact (length_testBitmap _).trans (by decide)
  | storeImm disp v => exact (length_storeImm _ _).trans (by decide)
  | bswap r => exact (length_bswap _).trans (by decide)
  | negR r => exact (length_negR _).trans (by decide)
  | notR r => exact (length_notR _).trans (by decide)
  | shrRi r n => exact (length_shrRi _ _).trans (by decide)
  | shlRi r n => exact (length_shlRi _ _).trans (by decide)
  | movLow r => exact (length_movLow _).trans (by decide)
  | movImm r v => exact (length_movImm _ _).trans (by decide)
  | aluImm ext r v => exact (length_aluImm _ _ _).trans (by decide)
  | jmpR r => exact (length_jmpR _).trans (by decide)
  | btRr base bit => exact (length_btRr _ _).trans (by decide)
  | _ => exact (length_rr _ _ _).trans (by decide)

/-- A call of the emitter, where it has been emitted. -/
theorem step_request {q : Request} (hallowed : q.Allowed) (hheld : Holds X.mem a q.bytes)
    (hstep : X.step q.meaning = some X') :
    Step C ⟨a, X⟩ ⟨a + BitVec.ofNat 64 q.bytes.length, X'⟩ :=
  step_plain hheld (length_request q) (fun _ => q.decodes hallowed) hstep

theorem step_straight {pageOff : BitVec 32} (h : Follows size m M X) (hi : Straight i)
    (hheld : Holds m a (encode pageOff i))
    (hbeyond : Beyond size (encode pageOff i).length a)
    (hstep : Machine.step maps i M = .run M') (hdawn : InDawn size M'.stores) :
    ∃ X', Step C ⟨a, X⟩ ⟨a + BitVec.ofNat 64 (encode pageOff i).length, X'⟩ ∧
      Follows size m M' X' ∧ Spares X X' := by
  obtain ⟨q, hq, hallowed, hencode⟩ := straight_request pageOff hi
  obtain ⟨X', hrun, hagree, hspare⟩ := follows h.agrees hi hq hstep
  have hgrows := @step_grows maps i M
  rw [hstep] at hgrows
  refine ⟨X', ?_, h.next hgrows hagree hdawn, hspare⟩
  rw [hencode] at hheld hbeyond ⊢
  exact step_request hallowed (h.holds hheld hbeyond) hrun

theorem steps_straight {pageOff : BitVec 32} (h : Follows size m M X)
    (hstraight : ∀ i ∈ is, Straight i) (hheld : Holds m a (EmitterBytes.code pageOff is))
    (hbeyond : Beyond size (EmitterBytes.code pageOff is).length a)
    (hexec : exec (Machine.step maps) is M = .run M') (hdawn : InDawn size M'.stores) :
    ∃ X', Steps C ⟨a, X⟩ ⟨a + BitVec.ofNat 64 (EmitterBytes.code pageOff is).length, X'⟩ ∧
      Follows size m M' X' ∧ Spares X X' := by
  induction is generalizing M X a with
  | nil =>
      cases hexec
      exact ⟨X, by simpa [EmitterBytes.code] using Relation.ReflTransGen.refl, h, .refl X⟩
  | cons i is ih =>
      have hi := hstraight i List.mem_cons_self
      obtain ⟨M₁, hstep⟩ := @straight_step maps i hi M
      rw [exec_cons_of_run hstep] at hexec
      rw [EmitterBytes.code, List.flatMap_cons, List.length_append] at hbeyond
      rw [EmitterBytes.code, List.flatMap_cons] at hheld
      obtain ⟨hfirst, hrest⟩ := holds_append.mp hheld
      obtain ⟨X₁, hone, hfollow, hspare⟩ := step_straight (C := C) h hi hfirst hbeyond.left
        hstep (.of_grows (exec_run_grows hexec) hdawn)
      obtain ⟨X₂, hmore, hfollow', hspare'⟩ := ih hfollow
        (fun j hj => hstraight j (List.mem_cons_of_mem i hj)) hrest hbeyond.right hexec
      refine ⟨X₂, ?_, hfollow', hspare.trans hspare'⟩
      rw [EmitterBytes.code, List.flatMap_cons, List.length_append, ← add_ofNat_add]
      exact .head hone hmore

/-! ## Instructions that leave memory alone -/

inductive Reads : List Request → X86.State → X86.State → Prop
  | nil (X : X86.State) : Reads [] X X
  | cons {q : Request} {qs : List Request} {X X₁ X₂ : X86.State} (hallowed : q.Allowed)
      (hstep : X.step q.meaning = some X₁) (hmem : X₁.mem = X.mem) (hrest : Reads qs X₁ X₂) :
      Reads (q :: qs) X X₂

theorem steps_reads {qs : List Request} (h : Reads qs X X')
    (hheld : Holds X.mem a (qs.flatMap Request.bytes)) :
    Steps C ⟨a, X⟩ ⟨a + BitVec.ofNat 64 (qs.flatMap Request.bytes).length, X'⟩ := by
  induction h generalizing a with
  | nil X => simpa using Relation.ReflTransGen.refl
  | cons hallowed hstep hmem _ ih =>
      obtain ⟨hfirst, hrest⟩ := holds_append.mp hheld
      rw [← hmem] at hrest
      rw [List.flatMap_cons, List.length_append, ← add_ofNat_add]
      exact .head (step_request hallowed hfirst hstep) (ih hrest)

/-! ## Tests for translated code -/

/-- The maps that the tests read, at `r14`, for a memory of `size` bytes. -/
structure MapsRead (maps : Maps) (size : ℕ) (m : Memory) (r14 : Word) (pageOff : BitVec 32) :
    Prop where
  small : size < 2 ^ 37
  qword : ∀ q : Word, q.toNat * 512 < size →
    BitVec.ofNat 64 (readLittle m (r14 + q <<< 3) 8) = maps.qword q ∧
      Beyond size 8 (r14 + q <<< 3)
  page : ∀ t : Word, t.toNat * 4096 < size →
    m (r14 + t + pageOff.signExtend 64) = (if maps.page t then 1 else 0) ∧
      size ≤ (r14 + t + pageOff.signExtend 64).toNat

variable {r14v w : Word} {pageOff : BitVec 32}

theorem readLittle_eq_readLe (m : Memory) (a : Word) (n : ℕ) :
    readLittle m a n = BitTable.readLe m a n := by
  induction n generalizing a with
  | zero => rfl
  | succ n ih =>
      rw [readLittle, BitTable.readLe, ih]
      omega

theorem readLittle_congr {m m' : Memory} {n : ℕ} (h : Same m m' a n) :
    readLittle m' a n = readLittle m a n := by
  induction n generalizing a with
  | zero => rfl
  | succ n ih =>
      have hone : a + 1 = a + BitVec.ofNat 64 1 := rfl
      have hfirst := h 0 (Nat.succ_pos n)
      rw [BitVec.add_zero] at hfirst
      rw [Nat.add_comm] at h
      rw [readLittle, readLittle, hfirst, hone, ih h.right]

/-- The bit of a word, from its byte. -/
theorem MapsRead.static (h : MapsRead maps size m r14v pageOff) (hw : w.toNat * 8 < size) :
    maps.static w = (m (r14v + w >>> 3)).getLsbD (w.toNat % 8) := by
  have hq : (w >>> 6).toNat * 512 < size := by bv_omega
  rw [Machine.Maps.static, ← (h.qword _ hq).1, readLittle_eq_readLe, BitVec.getLsbD_ofNat,
    decide_eq_true (Nat.mod_lt _ (by decide)), Bool.true_and]
  exact BitTable.testBit_readLe_eight m r14v w

theorem get_byte {x : Word} {o : Mem} (h : X.address o = some x) :
    X.get .byte (.mem o) = some (X.mem x) := by
  have hlt := (X.mem x).isLt
  rw [State.get, h, Option.map_some]
  congr 1
  apply BitVec.eq_of_toNat_eq
  simp only [readLittle, Size.bytes, Size.bits, BitVec.toNat_ofNat]
  omega

/-- A comparison of a byte in memory with a constant. -/
theorem binary_byte {op : X86.Binary} {x : Word} {o : Mem} (h : X.address o = some x)
    (hwrites : op.writes = false) (v : Word) :
    X.binary op .byte (.mem o) v =
      some { X with flags := op.flags (X.mem x) (v.setWidth 8) X.flags } := by
  rw [State.binary, get_byte h]
  simp [hwrites]

theorem bit_of_shift (k : ℕ) : BitVec.ofNat 8 (1 <<< k) = 1#8 <<< k := by
  apply BitVec.eq_of_toNat_eq
  simp [Nat.shiftLeft_eq]

theorem setWidth_signExtend (v : Byte) : (v.signExtend 64).setWidth 8 = v := by
  apply BitVec.eq_of_getLsbD_eq
  intro k hk
  rw [BitVec.getLsbD_setWidth, BitVec.getLsbD_signExtend]
  simp [hk, show k < 64 by omega]

/-- The flags of a test of one bit of a byte. -/
theorem test_bit (v : Byte) {k : ℕ} (hk : k < 8) :
    resultFlags (v &&& 1#8 <<< k) false false =
      ⟨some (!v.getLsbD k), some (v.getLsbD k && k == 7), some false, some false⟩ := by
  have hzero := StaticMap.and_bit_ne_zero v hk
  have hmsb : (v &&& 1#8 <<< k).msb = (v.getLsbD k && k == 7) := by
    rw [BitVec.msb_eq_getLsbD_last, BitVec.getLsbD_and, BitTable.getLsbD_bit _ _ (by omega)]
    by_cases h7 : k = 7
    · simp [h7]
    · simp [h7, Ne.symm h7]
  have hnot : decide (v &&& 1#8 <<< k = 0) = !v.getLsbD k := by
    rw [Bool.eq_iff_iff, decide_eq_true_eq, Bool.not_eq_true', ← Bool.not_eq_true, ← hzero,
      not_not]
  simp only [resultFlags, hmsb, hnot]

theorem follows_testBitmap (h : Follows size m M X)
    (hmaps : MapsRead maps size m (X.reg r14) pageOff) (hw : w.toNat * 8 < size) :
    ∃ X', X.step (Request.testBitmap w).meaning = some X' ∧ Spares X X' ∧
      Follows size m (M.setFlags (some ⟨!maps.static w, maps.static w && w.toNat % 8 == 7,
        false⟩)) X' := by
  have hsmall := hmaps.small
  have hdisp : ((w >>> 3).setWidth 32).signExtend 64 = w >>> 3 :=
    (testBitmap_disp w).mpr (by omega)
  have haddr : X.address (atDisp r14 ((w >>> 3).setWidth 32)) = some (X.reg r14 + w >>> 3) := by
    simp [State.address, atDisp, hdisp]
  have hq : (w >>> 6).toNat * 512 < size := by bv_omega
  have hbyte : X.mem (X.reg r14 + w >>> 3) = m (X.reg r14 + w >>> 3) := by
    rw [h.agrees.mem]
    obtain rfl := h.init
    refine applyStores_beyond h.dawn M.init ?_
    have hbeyond := (hmaps.qword _ hq).2.le (by omega : w.toNat % 64 / 8 < 8)
    have hplace : X.reg r14 + w >>> 3 =
        X.reg r14 + (w >>> 6) <<< 3 + BitVec.ofNat 64 (w.toNat % 64 / 8) := by
      have hwlt := w.isLt
      bv_omega
    rwa [hplace]
  have hlow : ((BitVec.ofNat 8 (1 <<< (w.toNat % 8))).signExtend 64).setWidth 8 =
      1#8 <<< (w.toNat % 8) := by
    rw [bit_of_shift, setWidth_signExtend]
  refine ⟨_, binary_byte haddr rfl _, fun _ _ => rfl, h.next ⟨rfl, List.prefix_refl _⟩ ?_ h.dawn⟩
  refine h.agrees.setFlags fun g hg => ?_
  cases hg
  have hflags : Binary.flags .test (X.mem (X.reg r14 + w >>> 3)) (1#8 <<< (w.toNat % 8)) X.flags =
      resultFlags (X.mem (X.reg r14 + w >>> 3) &&& 1#8 <<< (w.toNat % 8)) false false := rfl
  rw [hlow, hflags, hbyte, test_bit _ (Nat.mod_lt _ (by decide)), hmaps.static hw]
  exact ⟨rfl, rfl, rfl⟩

theorem follows_cmpPage {t1 : Machine.Reg} (h : Follows size m M X)
    (hmaps : MapsRead maps size m (X.reg r14) pageOff) (ht : (M.reg t1).toNat * 4096 < size) :
    ∃ X', X.step (Request.cmpByteZero r14 (allocRegs t1) pageOff).meaning = some X' ∧
      Spares X X' ∧
      Follows size m (M.setFlags (some ⟨!maps.page (M.reg t1), false, false⟩)) X' := by
  obtain ⟨hpage, hlow⟩ := hmaps.page _ ht
  have haddr : X.address ⟨.reg r14, some (allocRegs t1, 0), pageOff.signExtend 64⟩ =
      some (X.reg r14 + M.reg t1 + pageOff.signExtend 64) := by
    simp [State.address, h.agrees.reg]
  have hbyte : X.mem (X.reg r14 + M.reg t1 + pageOff.signExtend 64) =
      if maps.page (M.reg t1) then 1 else 0 := by
    rw [h.agrees.mem, ← hpage]
    obtain rfl := h.init
    exact applyStores_beyond h.dawn M.init hlow
  refine ⟨_, binary_byte haddr rfl _, fun _ _ => rfl, h.next ⟨rfl, List.prefix_refl _⟩ ?_ h.dawn⟩
  refine h.agrees.setFlags fun g hg => ?_
  cases hg
  rw [hbyte]
  cases maps.page (M.reg t1) <;> exact ⟨rfl, rfl, rfl⟩

/-! ## Checks out of line -/

/-- The byte whose word is looked at. -/
def preciseByte (q : Precise) (second : Bool) : Request :=
  if second then .opMem .lea (allocRegs q.t1) (allocRegs q.rb) 7
  else .movRr (allocRegs q.t1) (allocRegs q.rb)

def preciseRequests (q : Precise) (second : Bool) : List Request :=
  let t1 := allocRegs q.t1
  let t2 := allocRegs q.t2
  [preciseByte q second, .shrRi t1 3, .movRr t2 t1, .shrRi t2 6, .loadSib8 t2 r14 t2,
    .btRr t2 t1]

theorem preciseLoad_eq (q : Precise) (second : Bool) :
    preciseLoad q second = (preciseRequests q second).map Request.bytes := by
  cases second <;> rfl

/-- The word of the first or the second byte of a store to `rb`. -/
def checkedWord (q : Precise) (second : Bool) (M : Machine.State) : Word :=
  (if second then M.reg q.rb + 7 else M.reg q.rb) >>> 3

/-- The machine once it has looked at one of the words. -/
def afterLook (maps : Maps) (q : Precise) (second : Bool) (M : Machine.State) : Machine.State :=
  let w := checkedWord q second M
  ((M.set q.t1 w).set q.t2 (maps.qword (w >>> 6))).setFlags none

theorem checkWords_eq (s : Smc) (q : Precise) (M : Machine.State) :
    Machine.checkWords maps s q M =
      if maps.static (checkedWord q false M) then .exit (.smc s) (afterLook maps q false M)
      else if maps.static (checkedWord q true (afterLook maps q false M)) then
        .exit (.smc s) (afterLook maps q true (afterLook maps q false M))
      else .run (afterLook maps q true (afterLook maps q false M)) := rfl

theorem mem_eq_of_agrees (h : Agrees M X) (h' : Agrees M' X') (hinit : M'.init = M.init)
    (hstores : M'.stores = M.stores) : X'.mem = X.mem := by
  rw [h.mem, h'.mem, Machine.State.mem, Machine.State.mem, hinit, hstores]

theorem spares_r14 (h : Spares X X') : X'.reg r14 = X.reg r14 :=
  h r14 fun r => ((allocRegs_ne r).2.2.1).symm

theorem follows_insn (maps : Maps) (h : Agrees M X) (i : Insn) (hi : Straight i) {q : Request}
    (hq : request 0 i = some q) (hstep : Machine.step maps i M = .run M') :
    ∃ X', X.step q.meaning = some X' ∧ Agrees M' X' ∧ Spares X X' :=
  follows h hi hq hstep

theorem precise_first (h : Agrees M X) (q : Precise) (second : Bool) :
    ∃ X', X.step (preciseByte q second).meaning = some X' ∧
      Agrees (M.set q.t1 (if second then M.reg q.rb + 7 else M.reg q.rb)) X' ∧ Spares X X' := by
  cases second with
  | false => exact follows_insn ⟨fun _ => 0, fun _ => false⟩ h (.mov q.t1 q.rb) trivial rfl rfl
  | true =>
      refine ⟨X.set (allocRegs q.t1) (M.reg q.rb + 7), ?_, h.set _ _, Spares.set X _ _⟩
      have hseven : (7#32).signExtend 64 = 7 := by decide
      simp [preciseByte, Request.meaning, State.step, State.address, atDisp, State.setReg,
        h.reg, hseven]

theorem preciseByte_allowed (q : Precise) (second : Bool) : (preciseByte q second).Allowed := by
  cases second <;> trivial

theorem look_state (M : Machine.State) (t1 t2 : Machine.Reg) (v Q : Word) :
    let M₁ := M.set t1 v
    let M₂ := (M₁.set t1 (M₁.reg t1 >>> 3)).setFlags none
    let M₃ := M₂.set t2 (M₂.reg t1)
    let M₄ := (M₃.set t2 (M₃.reg t2 >>> 6)).setFlags none
    M₄.set t2 Q = ((M.set t1 (v >>> 3)).set t2 Q).setFlags none := by
  simp [Machine.State.set, Machine.State.setFlags]

theorem precise_reads (h : Follows size m M X)
    (hmaps : MapsRead maps size m (X.reg r14) pageOff) (q : Precise) (hne : q.t1 ≠ q.t2)
    (second : Bool) (hw : (checkedWord q second M).toNat * 8 < size) :
    ∃ X', Reads (preciseRequests q second) X X' ∧
      Follows size m (afterLook maps q second M) X' ∧ Spares X X' ∧
      X'.flags.cf = some (maps.static (checkedWord q second M)) := by
  have hq : (checkedWord q second M >>> 6).toNat * 512 < size := by bv_omega
  obtain ⟨hqword, hbeyond⟩ := hmaps.qword _ hq
  obtain ⟨X₁, hrun₁, hagree₁, hspare₁⟩ := precise_first h.agrees q second
  obtain ⟨X₂, hrun₂, hagree₂, hspare₂⟩ :=
    follows_insn maps hagree₁ (.shr q.t1 3) (show 3 < 64 by decide) rfl rfl
  obtain ⟨X₃, hrun₃, hagree₃, hspare₃⟩ := follows_insn maps hagree₂ (.mov q.t2 q.t1) trivial rfl rfl
  obtain ⟨X₄, hrun₄, hagree₄, hspare₄⟩ :=
    follows_insn maps hagree₃ (.shr q.t2 6) (show 6 < 64 by decide) rfl rfl
  have hspare := hspare₁.trans (hspare₂.trans (hspare₃.trans hspare₄))
  have hmem₁ := mem_eq_of_agrees h.agrees hagree₁ rfl rfl
  have hmem₂ := mem_eq_of_agrees hagree₁ hagree₂ rfl rfl
  have hmem₃ := mem_eq_of_agrees hagree₂ hagree₃ rfl rfl
  have hmem₄ := mem_eq_of_agrees hagree₃ hagree₄ rfl rfl
  have hindex : X₄.reg (allocRegs q.t2) = checkedWord q second M >>> 6 := by
    rw [hagree₄.reg]
    cases second <;> simp [Machine.State.set, Machine.State.setFlags, checkedWord]
  have haddr : X₄.address ⟨.reg r14, some (allocRegs q.t2, 3), 0⟩ =
      some (X.reg r14 + (checkedWord q second M >>> 6) <<< 3) := by
    simp [State.address, hindex, spares_r14 hspare]
  have hsame : Same m X₄.mem (X.reg r14 + (checkedWord q second M >>> 6) <<< 3) 8 := by
    rw [hmem₄, hmem₃, hmem₂, hmem₁, h.agrees.mem]
    obtain rfl := h.init
    exact same_mem h.dawn hbeyond
  have hrun₅ := load_step haddr (allocRegs q.t2)
  rw [← readLittle_eight, readLittle_congr hsame, hqword] at hrun₅
  have hagree₅ := hagree₄.set q.t2 (maps.qword (checkedWord q second M >>> 6))
  rw [look_state] at hagree₅
  refine ⟨_, .cons (preciseByte_allowed q second) hrun₁ hmem₁ (.cons trivial hrun₂ hmem₂
    (.cons trivial hrun₃ hmem₃ (.cons trivial hrun₄ hmem₄ (.cons ⟨by decide, (allocRegs_ne _).1⟩
      hrun₅ rfl (.cons trivial rfl rfl (.nil _)))))), ?_, ?_, ?_⟩
  · exact h.next ⟨rfl, List.prefix_refl _⟩ (hagree₅.setFlags fun g hg => by cases hg) h.dawn
  · exact hspare.trans (Spares.set X₄ q.t2 _)
  · have ht1 : (X₄.set (allocRegs q.t2) (maps.qword (checkedWord q second M >>> 6))).reg
        (allocRegs q.t1) = checkedWord q second M := by
      rw [hagree₅.reg q.t1]
      simp [Machine.State.set, Machine.State.setFlags, hne, checkedWord]
    have ht2 : (X₄.set (allocRegs q.t2) (maps.qword (checkedWord q second M >>> 6))).reg
        (allocRegs q.t2) = maps.qword (checkedWord q second M >>> 6) := by
      rw [hagree₅.reg q.t2]
      simp [Machine.State.set, Machine.State.setFlags]
    simp only [ht1, ht2, Size.bits, Machine.Maps.static]

end BlockCode
end SubleqEmu
