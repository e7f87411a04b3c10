import SubleqEmu.EmitterProcessor
import SubleqEmu.TranslatorStores
import SubleqEmu.TranslatorSoundness
import SubleqEmu.TranslatorWeights

/-!
# Runs of emitted code

The processor runs the bytes of straight code as the machine runs its instructions; from
that, what the store of a constant leaves in memory.
-/

namespace SubleqEmu
namespace EmitterBytes

open X86 Emitter ByteMemory Translator

variable {maps : Machine.Maps} {M M' : Machine.State} {X X' : X86.State} {i : Machine.Insn}
  {c : List Machine.Insn} {pageOff : BitVec 32}

/-! ## Straight code -/

/-- Straight instructions have an encoding, which is decoded to what they mean. -/
theorem straight_request (pageOff : BitVec 32) (h : Straight i) :
    ∃ q, request pageOff i = some q ∧ q.Allowed ∧ encode pageOff i = q.bytes := by
  cases i with
  | testBitmap w => cases h
  | cmpPage t1 => cases h
  | jnz s => cases h
  | jle s => cases h
  | jmp s => cases h
  | andImm r v => exact ⟨_, rfl, Or.inr (Or.inl rfl), rfl⟩
  | _ => exact ⟨_, rfl, trivial, rfl⟩

/-- A straight instruction goes on to the next. -/
theorem straight_step (h : Straight i) (M : Machine.State) :
    ∃ M', Machine.step maps i M = .run M' := by
  cases i with
  | testBitmap w => cases h
  | cmpPage t1 => cases h
  | jnz s => cases h
  | jle s => cases h
  | jmp s => cases h
  | _ => exact ⟨_, rfl⟩

/-- The processor on the bytes follows the machine on the instructions. -/
theorem runs_code (h : Agrees M X) (hstraight : ∀ i ∈ c, Straight i)
    (hexec : exec (Machine.step maps) c M = .run M') :
    ∃ X', Runs (code pageOff c) X X' ∧ Agrees M' X' ∧ Spares X X' := by
  induction c generalizing M X with
  | nil =>
      cases hexec
      exact ⟨X, .nil X, h, .refl X⟩
  | cons i c ih =>
      have hi := hstraight i List.mem_cons_self
      obtain ⟨M₁, hstep⟩ := @straight_step maps i hi M
      rw [exec_cons_of_run hstep] at hexec
      obtain ⟨q, hq, hallowed, hencode⟩ := straight_request pageOff hi
      obtain ⟨X₁, hfollow, hagree, hspare⟩ := follows h hi hq hstep
      obtain ⟨X₂, hruns, hagree', hspare'⟩ :=
        ih hagree (fun j hj => hstraight j (List.mem_cons_of_mem i hj)) hexec
      refine ⟨X₂, ?_, hagree', hspare.trans hspare'⟩
      rw [code, List.flatMap_cons, hencode]
      exact .one_append (fun _ => q.decodes hallowed) hfollow hruns

/-- Only what is not straight has a weight here. -/
def crooked : Weights := ⟨0, 0, 1, 1, 1, 1⟩

theorem straight_of_crooked (h : crooked.of i = 0) : Straight i := by
  cases i <;> trivial

theorem storeConst_straight {v : Word} {target : Target} {J J' : Cache} {u : Unit}
    (h : storeConst v target J = some (u, J', c)) : ∀ i ∈ c, Straight i := by
  have hweight := @storeConst_weighs crooked v target _ _ _ _ h
  have hzero := weight_eq_zero.mp (Nat.le_zero.mp hweight)
  exact fun i hi => straight_of_crooked (hzero i hi)

/-! ## The store of a constant -/

/-- Memory before the store: as it was, or with what was held back. -/
theorem mem_before {m : Memory} {P : Set Machine.Reg} {J J' : Cache}
    (h : Keeps m P J M J' M') :
    M'.mem = M.mem ∨
      ∃ b, J.pend = some b ∧ J'.pend = none ∧ M'.mem = write M.mem b (read m b) := by
  have hstores := h.stores
  rcases h.pend with hpend | hpend
  · have hheld : held m J' = held m J := by rw [held, hpend, held]
    rw [hheld, List.append_cancel_right_eq] at hstores
    exact Or.inl (by rw [Machine.State.mem, Machine.State.mem, h.init, hstores])
  · rw [held_none hpend, List.append_nil] at hstores
    cases hold : J.pend with
    | none =>
        rw [held_none hold, List.append_nil] at hstores
        exact Or.inl (by rw [Machine.State.mem, Machine.State.mem, h.init, hstores])
    | some b =>
        refine Or.inr ⟨b, rfl, hpend, ?_⟩
        rw [held, hold] at hstores
        rw [Machine.State.mem, h.init, hstores, applyStores_append]
        rfl

theorem mem_put (M : Machine.State) (a v : Word) : (M.put a v).mem = write M.mem a v := by
  rw [Machine.State.mem, Machine.State.put, applyStores_append]
  rfl

theorem storeConst_bytes {m : Memory} {P : Set Machine.Reg} {J J' : Cache} {u : Unit} {v : Word}
    {target : Target} (hready : Ready m P J M) (huse : ∀ s, target.Uses s → s ∈ P)
    (hagree : Agrees M X) (h : storeConst v target J = some (u, J', c)) :
    ∃ X', Runs (code pageOff c) X X' ∧ Spares X X' ∧
      (X'.mem = write X.mem (target.address M) v ∨
        ∃ b, J.pend = some b ∧ J'.pend = none ∧
          X'.mem = write (write X.mem b (read m b)) (target.address M) v) := by
  let maps : Machine.Maps := ⟨fun _ => 0, fun _ => false⟩
  obtain ⟨M₁, hexec, hkeep⟩ := @storeConst_stores maps m P J M v target hready huse _ _ _ h
  obtain ⟨X', hruns, hagree', hspare⟩ := runs_code hagree (storeConst_straight h) hexec
  refine ⟨X', hruns, hspare, ?_⟩
  rw [hagree'.mem, mem_put, hagree.mem]
  rcases mem_before hkeep with hmem | ⟨b, hold, hnew, hmem⟩
  · rw [hmem]
    exact Or.inl rfl
  · rw [hmem]
    exact Or.inr ⟨b, hold, hnew, rfl⟩

theorem write_byte (n : Memory) (a v : Word) {k : ℕ} (hk : k < 8) :
    write n a v (a + BitVec.ofNat 64 k) = byteAt v k := by
  rw [← byteAt_read (write n a v) a hk, read_write_self]

/-! ## The emitter -/

/-- The displacement of `test_bitmap` is the word's place as long as 32 bits hold it. -/
theorem testBitmap_disp (w : Word) :
    ((w >>> 3).setWidth 32).signExtend 64 = w >>> 3 ↔ w.toNat < 2 ^ 34 := by
  rw [← BitVec.toInt_inj, BitVec.toInt_signExtend_of_le (by omega), BitVec.toInt_setWidth,
    BitVec.toInt_eq_toNat_cond, BitVec.toNat_ushiftRight, Nat.shiftRight_eq_div_pow, Int.bmod_def]
  have := w.isLt
  omega

theorem emitted_bytes_mean_request :
    (∀ (q : Request) (bs : List Byte), q.Allowed →
      decode (q.bytes ++ bs) = some (q.meaning, bs)) ∧
    (∀ r s t : Machine.Reg, ∀ disp, (Request.loadSib8 (allocRegs r) r14 (allocRegs s)).Allowed ∧
      (Request.cmpByteZero r14 (allocRegs t) disp).Allowed) ∧
    (∀ w, (Request.testBitmap w).meaning = .binaryImm .test .byte
        (.mem ⟨.reg r14, none, w >>> 3⟩) ((BitVec.ofNat 8 (1 <<< (w.toNat % 8))).signExtend 64) ↔
      w.toNat < 2 ^ 34) ∧
    (∀ (r : X86.Reg) (v : Word) (X : X86.State), Runs (movImm r v) X (X.set r v)) ∧
    ∀ (pageOff : BitVec 32) (m : Memory) (P : Set Machine.Reg) (J J' : Cache)
      (M : Machine.State) (X : X86.State) (v : Word) (target : Target) (u : Unit)
      (c : List Machine.Insn), Ready m P J M → (∀ s, target.Uses s → s ∈ P) → Agrees M X →
      storeConst v target J = some (u, J', c) →
      ∃ X', Runs (code pageOff c) X X' ∧
        (∀ k < 8, X'.mem (target.address M + BitVec.ofNat 64 k) = byteAt v k) ∧
        (X'.mem = write X.mem (target.address M) v ∨
          ∃ b, J.pend = some b ∧ J'.pend = none ∧
            X'.mem = write (write X.mem b (read m b)) (target.address M) v) := by
  refine ⟨fun q bs hq => q.decodes hq, ?_, ?_, ?_, ?_⟩
  · intro r s t disp
    exact ⟨⟨by decide, (allocRegs_ne s).1⟩, (allocRegs_ne t).1⟩
  · intro w
    rw [← testBitmap_disp w]
    simp [Request.meaning, atDisp]
  · intro r v X
    have hdecode : decode (movImm r v ++ []) = some ((Request.movImm r v).meaning, []) :=
      movImm_decodes r v
    rw [List.append_nil] at hdecode
    exact .cons hdecode (movImm_step X r v) (.nil _)
  · intro pageOff m P J J' M X v target u c hready huse hagree h
    obtain ⟨X', hruns, -, hmem⟩ := storeConst_bytes hready huse hagree h
    refine ⟨X', hruns, fun k hk => ?_, hmem⟩
    rcases hmem with hmem | ⟨b, -, -, hmem⟩
    · rw [hmem, write_byte _ _ _ hk]
    · rw [hmem, write_byte _ _ _ hk]

theorem emitted_bytes_mean_request_sample :
    decode (loadSib8 2 14 12) = some (.load .qword 2 (.mem ⟨.reg 14, some (12, 3), 0⟩), []) ∧
      ∃ J' c X', storeConst 0x0123456789abcdef (.static 0x100) sampleCache = some ((), J', c) ∧
        Runs (code 0 c) ⟨fun r => if r = r15 then Machine.bias else 0, fun _ => 0,
          ⟨none, none, none, none⟩⟩ X' ∧
        X'.mem 0x100 = 0x01 ∧ X'.mem 0x107 = 0xef := by
  obtain ⟨hdecode, -, -, -, hstore⟩ := emitted_bytes_mean_request
  have hload := hdecode (.loadSib8 2 14 12) [] ⟨by decide, by decide⟩
  rw [List.append_nil] at hload
  refine ⟨hload, ?_⟩
  let M : Machine.State := ⟨fun _ => 0, none, fun _ => 0, []⟩
  obtain ⟨⟨u, J', c⟩, heq⟩ := Option.isSome_iff_exists.mp
    (by decide : (storeConst 0x0123456789abcdef (.static 0x100) sampleCache).isSome = true)
  have hready : Ready M.mem ∅ sampleCache M := {
    entry := fun h => absurd h not_entry_start
    unique := fun h => absurd h not_entry_start
    pend := nofun
    pinned := nofun }
  have hagree : Agrees M ⟨fun r => if r = r15 then Machine.bias else 0, fun _ => 0,
      ⟨none, none, none, none⟩⟩ := {
    reg := fun r => if_neg (allocRegs_ne r).2.2.2
    r15 := rfl
    mem := rfl
    flags := nofun }
  obtain ⟨X', hruns, hbytes, -⟩ := hstore 0 M.mem ∅ sampleCache J' M _ _ (.static 0x100) u c
    hready nofun hagree heq
  exact ⟨J', c, X', heq, hruns, hbytes 0 (by decide), hbytes 7 (by decide)⟩

end EmitterBytes
end SubleqEmu
