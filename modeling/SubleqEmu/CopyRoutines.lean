import SubleqEmu.CopyLoopShortcut
import SubleqEmu.CopyRoutinesModel

/-!
# The copy routines agree

Going up is right if the destination starts no later than the source, or past it:
what a block overwrites is then no byte still to be read.
-/

namespace SubleqEmu
namespace CopyRoutines

open ByteMemory Subleq CopyLoop

/-- The ranges do not wrap around, and the destination can be written from below. -/
structure Forward (d s : Word) (n : ℕ) : Prop where
  source_le : s.toNat + n ≤ 2 ^ 64
  target_le : d.toNat + n ≤ 2 ^ 64
  order : d.toNat ≤ s.toNat ∨ s.toNat + n ≤ d.toNat

theorem Forward.le {d s : Word} {k n : ℕ} (h : Forward d s n) (hk : k ≤ n) :
    Forward d s k := by
  obtain ⟨hsource, htarget, horder⟩ := h
  exact ⟨by omega, by omega, by omega⟩

theorem Forward.rest {d s : Word} {k n : ℕ} (h : Forward d s (k + n)) :
    Forward (d + BitVec.ofNat 64 k) (s + BitVec.ofNat 64 k) n := by
  obtain ⟨hsource, htarget, horder⟩ := h
  rcases Nat.eq_zero_or_pos n with rfl | hn
  · exact ⟨by bv_omega, by bv_omega, by bv_omega⟩
  · exact ⟨by bv_omega, by bv_omega, by bv_omega⟩

theorem Forward.transfer {d s : Word} {k n : ℕ} (h : Forward d s (k + n)) (m : Memory) :
    transfer id (transfer id m d s k) (d + BitVec.ofNat 64 k) (s + BitVec.ofNat 64 k) n =
      ByteMemory.transfer id m d s (k + n) := by
  obtain ⟨hsource, htarget, horder⟩ := h
  apply transfer_transfer
  · intro o ho
    rfl
  · omega
  · intro o ho
    simp only [id_eq]
    bv_omega

/-! ## What is left to copy -/

def Regs.Forward (r : Regs) : Prop := CopyRoutines.Forward r.rdi r.rsi r.rdx.toNat

/-- Memory when all is copied. -/
def Regs.goal (r : Regs) : Memory := transfer id r.mem r.rdi r.rsi r.rdx.toNat

/-- The routine has copied `k` bytes more. -/
def Regs.moved (r : Regs) (k : ℕ) : Regs where
  rdi := r.rdi + BitVec.ofNat 64 k
  rsi := r.rsi + BitVec.ofNat 64 k
  rdx := r.rdx - BitVec.ofNat 64 k
  mem := transfer id r.mem r.rdi r.rsi k

/-- What every step of a routine preserves. -/
def Regs.Keeps (r r' : Regs) : Prop := r'.Forward ∧ r'.goal = r.goal

theorem Regs.Forward.keeps_moved {r : Regs} (h : r.Forward) {k : ℕ} (hk : k ≤ r.rdx.toNat) :
    r.Keeps (r.moved k) := by
  have hrest : (r.rdx - BitVec.ofNat 64 k).toNat = r.rdx.toNat - k := by bv_omega
  have hsplit : CopyRoutines.Forward r.rdi r.rsi (k + (r.rdx.toNat - k)) := by
    rw [Nat.add_sub_cancel' hk]
    exact h
  refine ⟨?_, ?_⟩
  · show CopyRoutines.Forward _ _ _
    simp only [Regs.moved, hrest]
    exact hsplit.rest
  · simp only [Regs.goal, Regs.moved, hrest]
    rw [hsplit.transfer, Nat.add_sub_cancel' hk]

theorem copyBlock_eq_moved (w : VecWidth) (r : Regs) :
    copyBlock w r = r.moved (64 * w.lanes) := by
  have hlanes := w.lanes_le
  have hstore : ∀ j, j ≤ 192 → store (transfer id r.mem r.rdi r.rsi j)
      (r.rdi + BitVec.ofNat 64 j) (load r.mem (r.rsi + BitVec.ofNat 64 j) : Vec w.lanes) =
        transfer id r.mem r.rdi r.rsi (j + 16 * w.lanes) := by
    intro j hj
    exact store_transfer _ _ _ (by omega)
  have htwo : 2 * BitVec.ofNat 64 (16 * w.lanes) =
      BitVec.ofNat 64 (16 * w.lanes + 16 * w.lanes) := by
    bv_omega
  have hthree : 3 * BitVec.ofNat 64 (16 * w.lanes) =
      BitVec.ofNat 64 (16 * w.lanes + 16 * w.lanes + 16 * w.lanes) := by
    bv_omega
  have hfirst := hstore 0 (by omega)
  rw [transfer_zero, BitVec.add_zero, BitVec.add_zero, Nat.zero_add] at hfirst
  simp only [copyBlock, Regs.moved, blockBytes, htwo, hthree]
  rw [hfirst, hstore _ (by omega), hstore _ (by omega), hstore _ (by omega)]
  congr 2
  omega

theorem copyWord_eq_moved (r : Regs) : copyWord r = r.moved 8 := by
  unfold copyWord Regs.moved
  congr 1
  funext a
  unfold write transfer
  split_ifs with h
  · exact byteAt_read _ _ h
  · rfl

theorem copyByte_eq_moved (r : Regs) : copyByte r = r.moved 1 := by
  rw [copyByte, ← transfer_one]
  rfl

theorem Regs.Keeps.trans {r r' r'' : Regs} (h : r.Keeps r') (h' : r'.Keeps r'') :
    r.Keeps r'' :=
  ⟨h'.1, h'.2.trans h.2⟩

theorem Regs.Forward.keeps_copyBlocks {r : Regs} (h : r.Forward) (w : VecWidth) :
    r.Keeps (copyBlocks w r) := by
  induction r using copyBlocks.induct w with
  | case1 r hlt =>
      rw [copyBlocks, if_pos hlt]
      exact ⟨h, rfl⟩
  | case2 r hle ih =>
      have hlanes := w.lanes_le
      have hroom : 64 * w.lanes ≤ r.rdx.toNat := by
        unfold blockBytes at hle
        bv_omega
      have hstep := h.keeps_moved hroom
      rw [copyBlocks, if_neg hle]
      rw [copyBlock_eq_moved] at ih ⊢
      exact hstep.trans (ih hstep.1)

theorem Regs.Forward.keeps_copyWords {r : Regs} (h : r.Forward) : r.Keeps (copyWords r) := by
  induction r using copyWords.induct with
  | case1 r hlt =>
      rw [copyWords, if_pos hlt]
      exact ⟨h, rfl⟩
  | case2 r hle ih =>
      have hroom : 8 ≤ r.rdx.toNat := by bv_omega
      have hstep := h.keeps_moved hroom
      rw [copyWords, if_neg hle]
      rw [copyWord_eq_moved] at ih ⊢
      exact hstep.trans (ih hstep.1)

/-- The loop over bytes leaves nothing to copy. -/
theorem Regs.Forward.mem_copyBytes {r : Regs} (h : r.Forward) : (copyBytes r).mem = r.goal := by
  induction r using copyBytes.induct with
  | case1 r hzero =>
      rw [copyBytes, if_pos hzero, Regs.goal, hzero]
      exact (transfer_zero _ _ _ _).symm
  | case2 r hne ih =>
      have hroom : 1 ≤ r.rdx.toNat := by bv_omega
      have hstep := h.keeps_moved hroom
      rw [copyBytes, if_neg hne]
      rw [copyByte_eq_moved] at ih ⊢
      rw [ih hstep.1, hstep.2]

theorem transfer_eq_moved (m : Memory) (d s n : Word) :
    transfer id m d s n.toNat = moved m d s n := by
  funext a
  unfold transfer moved
  simp only [id_eq, BitVec.ofNat_toNat, BitVec.setWidth_eq]

theorem mem_copyTail_copyBlocks (w : VecWidth) {m : Memory} {d s n : Word}
    (h : Forward d s n.toNat) : (copyTail (copyBlocks w ⟨d, s, n, m⟩)).mem = moved m d s n := by
  have hstart : Regs.Forward ⟨d, s, n, m⟩ := h
  have hblocks := hstart.keeps_copyBlocks w
  have hwords := hblocks.trans hblocks.1.keeps_copyWords
  rw [copyTail, hwords.1.mem_copyBytes, hwords.2]
  exact transfer_eq_moved m d s n

/-! ## `memmove` -/

/-- Going up from byte `i`, the bytes below are already copied. -/
theorem moveUp_eq (m : Memory) {dest src : Word} {i n : ℕ} (h : Forward dest src (i + n)) :
    moveUp dest src i n (transfer id m dest src i) = transfer id m dest src (i + n) := by
  induction n generalizing i with
  | zero => rfl
  | succ n ih =>
      rw [← Nat.add_assoc, Nat.add_right_comm] at h ⊢
      have hbyte : Forward dest src (i + 1) := h.le (Nat.le_add_right _ _)
      rw [moveUp, ← transfer_one, hbyte.transfer]
      exact ih h

/-- Going down from byte `i`, the bytes above are already copied. -/
theorem moveDown_eq (m : Memory) {dest src : Word} {i : ℕ} 
    (hsource : src.toNat + i ≤ 2 ^ 64) (htarget : dest.toNat + i ≤ 2 ^ 64)
    (horder : src.toNat ≤ dest.toNat) :
    moveDown dest src i m = transfer id m dest src i := by
  induction i generalizing m with
  | zero => rfl
  | succ i ih =>
      rw [moveDown, ih _ (by omega) (by omega)]
      funext a
      by_cases hi : (a - dest).toNat < i
      · have hread : src + BitVec.ofNat 64 (a - dest).toNat ≠ dest + BitVec.ofNat 64 i := by
          bv_omega
        rw [transfer_of_lt hi, transfer_of_lt (by omega), id_eq, Function.update_of_ne hread]
      · rw [transfer_of_le (by omega)]
        by_cases heq : a = dest + BitVec.ofNat 64 i
        · have hoffset : (a - dest).toNat = i := by bv_omega
          rw [heq, Function.update_self, ← heq, transfer_of_lt (by omega), hoffset, id_eq]
        · rw [Function.update_of_ne heq, transfer_of_le]
          bv_omega

theorem memmove_eq_moved {m : Memory} {d s n : Word} (h : Forward d s n.toNat) :
    memmove m d s n = moved m d s n := by
  rw [← transfer_eq_moved]
  unfold memmove
  split_ifs with hup hdown
  · have hall := moveUp_eq m (i := 0) (n := n.toNat) (by rwa [Nat.zero_add])
    rwa [transfer_zero, Nat.zero_add] at hall
  · exact moveDown_eq m h.source_le h.target_le (by bv_omega)
  · have heq : d = s := by bv_omega
    funext a
    unfold transfer
    split_ifs
    · congr 1
      simp only [id_eq]
      bv_omega
    · rfl

/-! ## In `jit_copy` -/

/-- What `jit_copy` does not refuse to copy can be copied from below. -/
theorem forward_of_refuses {size : MemSize} {pageMap : Word → Bool} {desc : Desc}
    {n s d : Word} (hn : n.toNat ≤ 2 ^ 60 + 1) (h : refuses size pageMap desc n s d = false) :
    Forward d s (8 * n).toNat := by
  have hsize := size.le
  have hbytes : (8 * n).toNat = 8 * n.toNat := by bv_omega
  simp only [refuses, Bool.or_eq_false_iff, decide_eq_false_iff_not,
    Bool.and_eq_false_iff] at h
  obtain ⟨⟨⟨⟨⟨-, ⟨⟨hs, hsb⟩, hd⟩, hdb⟩, horder⟩, -⟩, -⟩, -⟩ := h
  refine ⟨by bv_omega, by bv_omega, ?_⟩
  rcases horder with horder | horder <;> bv_omega

theorem jitCopy_congr {f g : Memory → Word → Word → Word → Memory}
    (hcopy : ∀ m d s n, Forward d s n.toNat → f m d s n = g m d s n) (size : MemSize)
    (pageMap : Word → Bool) (desc : Desc) (budget : Word) (m : Memory) :
    jitCopy size pageMap f desc budget m = jitCopy size pageMap g desc budget m := by
  unfold jitCopy
  refine Option.bind_congr fun mv hmv => ?_
  split_ifs
  · rfl
  refine Option.bind_congr fun s hs => Option.bind_congr fun d hd =>
    Option.bind_congr fun c hc => ?_
  have hle := (totalOf_bounds c).2
  obtain ⟨n, hn⟩ : ∃ n, n = if budget / 19 + 1 > totalOf c then totalOf c else budget / 19 + 1 :=
    ⟨_, rfl⟩
  have hn_le : n.toNat ≤ 2 ^ 60 + 1 := by
    rw [hn]
    split_ifs with htotal <;> bv_omega
  simp only [← hn]
  split_ifs with hrefuses
  · rfl
  · have hforward := forward_of_refuses hn_le (Bool.eq_false_iff.mpr hrefuses)
    rw [hcopy m d s (8 * n) hforward]

/-- Any of them leaves what a copy of the bytes as they were leaves. -/
theorem copyRoutines_interchangeable :
    ∀ f ∈ [copySse2, copyAvx, copyAvx512, memmove],
      (∀ (m : Memory) (d s n : Word), s.toNat + n.toNat ≤ 2 ^ 64 → d.toNat + n.toNat ≤ 2 ^ 64 →
        d.toNat ≤ s.toNat ∨ s.toNat + n.toNat ≤ d.toNat → f m d s n = moved m d s n) ∧
      ∀ (size : MemSize) (pageMap : Word → Bool) (desc : Desc) (budget : Word) (m : Memory),
        jitCopy size pageMap f desc budget m = jitCopy size pageMap moved desc budget m := by
  intro f hf
  have hcopy : ∀ m d s n, Forward d s n.toNat → f m d s n = moved m d s n := by
    intro m d s n h
    simp only [List.mem_cons, List.not_mem_nil, or_false] at hf
    rcases hf with rfl | rfl | rfl | rfl
    · exact mem_copyTail_copyBlocks .xmm h
    · exact mem_copyTail_copyBlocks .ymm h
    · exact mem_copyTail_copyBlocks .zmm h
    · exact memmove_eq_moved h
  exact ⟨fun m d s n hsource htarget horder => hcopy m d s n ⟨hsource, htarget, horder⟩,
    jitCopy_congr hcopy⟩

/-- A copy down by one byte, of two blocks of `copy_avx512` and three bytes. -/
theorem copyRoutines_interchangeable_down :
    copyAvx512 (fun a => a.setWidth 8) 4095 4096 515 =
      moved (fun a => a.setWidth 8) 4095 4096 515 :=
  (copyRoutines_interchangeable copyAvx512 (by simp)).1 (fun a => a.setWidth 8) 4095 4096 515
    (by decide) (by decide) (Or.inl (by decide))

end CopyRoutines
end SubleqEmu
