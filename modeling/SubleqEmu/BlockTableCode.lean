import SubleqEmu.BlockTableModel

/-!
# Jumps in the code cache

Patching a jump leaves the others as they are, since no two share a byte, and the
code cache is small enough for every displacement.
-/

namespace SubleqEmu
namespace BlockTable

open ByteMemory

section Jumps

variable {code code' : ℕ → BitVec 8} {site target s : ℕ}

theorem rel32_congr (h : ∀ k < 4, code' (s + k) = code (s + k)) : rel32 code' s = rel32 code s := by
  apply ext_dwordByte
  intro j hj
  rw [rel32, rel32, dwordByte_ofBytes _ hj, dwordByte_ofBytes _ hj, h j hj]

theorem jumpTarget_congr (h : ∀ k < 4, code' (s + k) = code (s + k)) :
    jumpTarget code' s = jumpTarget code s := by
  rw [jumpTarget, jumpTarget, rel32_congr h]

theorem patchRel32_of_apart {a : ℕ} (h : a < site ∨ site + 4 ≤ a) :
    patchRel32 code site target a = code a := by
  rw [patchRel32, if_neg (by omega)]

theorem jumpTarget_patchRel32 (hsite : site + 4 < 2 ^ 31) (htarget : target < 2 ^ 31) :
    jumpTarget (patchRel32 code site target) site = target := by
  have hrel : rel32 (patchRel32 code site target) site =
      BitVec.ofInt 32 (target - (site + 4 : ℕ)) := by
    apply ext_dwordByte
    intro j hj
    rw [rel32, dwordByte_ofBytes _ hj, patchRel32, if_pos (by omega), Nat.add_sub_cancel_left]
  rw [jumpTarget, hrel, BitVec.toInt_ofInt, Int.bmod_def]
  split_ifs <;> omega

theorem jumpTarget_patchRel32_of_apart (h : s + 4 ≤ site ∨ site + 4 ≤ s) :
    jumpTarget (patchRel32 code site target) s = jumpTarget code s := by
  apply jumpTarget_congr
  intro k hk
  exact patchRel32_of_apart (by omega)

theorem jumpTarget_of_zero (h : ∀ k < 4, code (s + k) = 0) : jumpTarget code s = s + 4 := by
  have hrel : rel32 code s = 0 := by
    apply ext_dwordByte
    intro j hj
    rw [rel32, dwordByte_ofBytes _ hj, h j hj]
    interval_cases j <;> rfl
  rw [jumpTarget, hrel]
  simp

end Jumps

/-! ## Where entries and exits are -/

/-- Places in the code that share no byte: the exits, and the first instructions of blocks. -/
structure Jit.Laid (sizes : Sizes) (J : Jit) : Prop where
  codePtr_le : J.codePtr ≤ sizes.codeBytes
  entry_le : ∀ b < J.nblocks, (J.blocks b).entry + 7 ≤ J.codePtr
  invStub_le : ∀ b < J.nblocks, (J.blocks b).invStub ≤ J.codePtr
  exit_le : ∀ s ∈ J.exits, s + 5 ≤ J.codePtr
  entries_apart : ∀ b < J.nblocks, ∀ b' < J.nblocks, b ≠ b' →
    (J.blocks b).entry + 7 ≤ (J.blocks b').entry ∨ (J.blocks b').entry + 7 ≤ (J.blocks b).entry
  exits_apart : ∀ s ∈ J.exits, ∀ s' ∈ J.exits, s ≠ s' → s + 5 ≤ s' ∨ s' + 5 ≤ s
  exit_entry : ∀ s ∈ J.exits, ∀ b < J.nblocks,
    s + 5 ≤ (J.blocks b).entry ∨ (J.blocks b).entry + 7 ≤ s

theorem Sizes.codeBytes_lt (sizes : Sizes) : sizes.codeBytes < 2 ^ 31 := by
  have hle := sizes.maxBlocks_le
  unfold Sizes.codeBytes
  omega

variable {sizes : Sizes} {J : Jit}

theorem Jit.Laid.exit_lt (h : J.Laid sizes) {s : ℕ} (hs : s ∈ J.exits) : s + 5 < 2 ^ 31 := by
  have hcode := sizes.codeBytes_lt
  have hptr := h.codePtr_le
  have hle := h.exit_le s hs
  omega

theorem Jit.Laid.entry_lt (h : J.Laid sizes) {b : ℕ} (hb : b < J.nblocks) :
    (J.blocks b).entry + 7 < 2 ^ 31 ∧ (J.blocks b).invStub < 2 ^ 31 := by
  have hcode := sizes.codeBytes_lt
  have hptr := h.codePtr_le
  have hle := h.entry_le b hb
  have hstub := h.invStub_le b hb
  omega

/-- The code's part of a table: nothing moves. -/
theorem Jit.Laid.congr {J' : Jit} (h : J.Laid sizes) (hptr : J'.codePtr = J.codePtr)
    (hexits : J'.exits = J.exits) (hn : J'.nblocks = J.nblocks)
    (hblocks : ∀ b, (J'.blocks b).entry = (J.blocks b).entry ∧
      (J'.blocks b).invStub = (J.blocks b).invStub) : J'.Laid sizes := by
  constructor
  · rw [hptr]
    exact h.codePtr_le
  · intro b hb
    rw [(hblocks b).1, hptr]
    exact h.entry_le b (hn ▸ hb)
  · intro b hb
    rw [(hblocks b).2, hptr]
    exact h.invStub_le b (hn ▸ hb)
  · rw [hexits, hptr]
    exact h.exit_le
  · intro b hb b' hb'
    rw [(hblocks b).1, (hblocks b').1]
    exact h.entries_apart b (hn ▸ hb) b' (hn ▸ hb')
  · rw [hexits]
    exact h.exits_apart
  · intro s hs b hb
    rw [(hblocks b).1]
    exact h.exit_entry s (hexits ▸ hs) b (hn ▸ hb)

/-! ## A new block -/

section Insert

variable {start b : ℕ} {made : Made}

/-- The record of the new block. -/
def Jit.newBlock (J : Jit) (start : ℕ) (made : Made) : Block where
  start := start
  n := made.n
  entry := J.codePtr
  invStub := J.codePtr + made.invStub
  hnext := J.htab (hash start)
  incoming := none
  valid := true
  smask := made.smask
  shash := made.shash

theorem Jit.blocks_insert_self : (J.insert start made).blocks J.nblocks = J.newBlock start made :=
  Function.update_self _ _ _

theorem Jit.blocks_insert_of_lt (hb : b < J.nblocks) :
    (J.insert start made).blocks b = J.blocks b :=
  Function.update_of_ne hb.ne _ _

theorem Jit.lt_insert_iff : b < (J.insert start made).nblocks ↔ b < J.nblocks ∨ b = J.nblocks := by
  show b < J.nblocks + 1 ↔ _
  omega

theorem Jit.mem_exits_insert {s : ℕ} :
    s ∈ (J.insert start made).exits ↔ s ∈ J.exits ∨ ∃ e ∈ made.exits, J.codePtr + e = s := by
  simp only [Jit.insert, List.mem_append, List.mem_map]

theorem Jit.code_insert_of_lt {a : ℕ} (ha : a < J.codePtr) :
    (J.insert start made).code a = J.code a := by
  show (if _ then _ else _) = _
  rw [if_neg (by omega)]

theorem Made.apart_of_ne {e e' : ℕ} (he : e ∈ made.exits) (he' : e' ∈ made.exits)
    (hne : e ≠ e') : e + 5 ≤ e' ∨ e' + 5 ≤ e := by
  obtain ⟨i, hi, rfl⟩ := List.mem_iff_getElem.mp he
  obtain ⟨j, hj, rfl⟩ := List.mem_iff_getElem.mp he'
  have hpairs := List.pairwise_iff_getElem.mp made.exits_apart
  rcases Nat.lt_trichotomy i j with hlt | rfl | hlt
  · exact Or.inl (hpairs i j hi hj hlt)
  · exact absurd rfl hne
  · exact Or.inr (hpairs j i hj hi hlt)

/-- The exits of a new block are slow. -/
theorem Jit.jumpTarget_insert_new {e : ℕ} (he : e ∈ made.exits) :
    jumpTarget (J.insert start made).code (J.codePtr + e) = (J.codePtr + e : ℕ) + 4 := by
  apply jumpTarget_of_zero
  intro k hk
  have hle := (made.exits_bounds e he).2
  show (if _ then _ else _) = _
  rw [if_pos (by omega), Nat.add_assoc, Nat.add_sub_cancel_left]
  exact made.exits_slow e he k hk

theorem Jit.Laid.insert (h : J.Laid sizes) (start : ℕ) (made : Made)
    (hroom : J.codePtr + codeSlack ≤ sizes.codeBytes) : (J.insert start made).Laid sizes := by
  have hlength := made.entry_le
  have hslack := made.code_le
  have hptr : (J.insert start made).codePtr = J.codePtr + made.code.length := rfl
  constructor
  · rw [hptr]
    omega
  · intro b hb
    rcases Jit.lt_insert_iff.mp hb with hb | rfl
    · have hle := h.entry_le b hb
      rw [Jit.blocks_insert_of_lt hb, hptr]
      omega
    · rw [Jit.blocks_insert_self, hptr]
      exact Nat.add_le_add_left hlength _
  · intro b hb
    rcases Jit.lt_insert_iff.mp hb with hb | rfl
    · have hle := h.invStub_le b hb
      rw [Jit.blocks_insert_of_lt hb, hptr]
      omega
    · rw [Jit.blocks_insert_self, hptr]
      exact Nat.add_le_add_left made.invStub_le _
  · intro s hs
    rw [hptr]
    rcases Jit.mem_exits_insert.mp hs with hs | ⟨e, he, rfl⟩
    · have hle := h.exit_le s hs
      omega
    · have hle := (made.exits_bounds e he).2
      omega
  · intro b hb b' hb' hne
    rcases Jit.lt_insert_iff.mp hb with hb | rfl <;> rcases Jit.lt_insert_iff.mp hb' with hb' | rfl
    · rw [Jit.blocks_insert_of_lt hb, Jit.blocks_insert_of_lt hb']
      exact h.entries_apart b hb b' hb' hne
    · rw [Jit.blocks_insert_of_lt hb, Jit.blocks_insert_self]
      exact Or.inl (h.entry_le b hb)
    · rw [Jit.blocks_insert_of_lt hb', Jit.blocks_insert_self]
      exact Or.inr (h.entry_le b' hb')
    · exact absurd rfl hne
  · intro s hs s' hs' hne
    rcases Jit.mem_exits_insert.mp hs with hs | ⟨e, he, rfl⟩ <;>
      rcases Jit.mem_exits_insert.mp hs' with hs' | ⟨e', he', rfl⟩
    · exact h.exits_apart s hs s' hs' hne
    · have hle := h.exit_le s hs
      omega
    · have hle := h.exit_le s' hs'
      omega
    · have hapart := made.apart_of_ne he he' (by omega)
      omega
  · intro s hs b hb
    rcases Jit.mem_exits_insert.mp hs with hs | ⟨e, he, rfl⟩ <;>
      rcases Jit.lt_insert_iff.mp hb with hb | rfl
    · rw [Jit.blocks_insert_of_lt hb]
      exact h.exit_entry s hs b hb
    · rw [Jit.blocks_insert_self]
      exact Or.inl (h.exit_le s hs)
    · have hle := h.entry_le b hb
      rw [Jit.blocks_insert_of_lt hb]
      omega
    · have hge := (made.exits_bounds e he).1
      rw [Jit.blocks_insert_self]
      exact Or.inr (Nat.add_le_add_left hge _)

end Insert

end BlockTable
end SubleqEmu
