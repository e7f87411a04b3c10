import SubleqEmu.RedrawModel

/-!
# Rows of the redraw kernels

Every block, like the scalar code, exchanges bytes 0 and 2 of its pixels, so that a row
is one transfer of bytes whatever blocks it is made of.
-/

namespace SubleqEmu
namespace Redraw

open ByteMemory

/-! ## Blocks -/

/-- Where a byte of a lane comes from. -/
def swapLane (k : Fin 16) : Fin 16 := ⟨swapByte k, swapByte_lt (n := 4) k.isLt⟩

def Block.Swaps (b : Block) : Prop := ∀ v l k, b.permute v l k = v l (swapLane k)

theorem dwordByte_dword {lanes : ℕ} (v : Vec lanes) (l : Fin lanes) (i : Fin 4) {j : ℕ}
    (hj : j < 4) : dwordByte (dword v l i) j = v l (Fin.ofNat 16 (4 * i + j)) :=
  dwordByte_ofBytes _ hj

theorem dword_ofDwords {lanes : ℕ} (f : Fin lanes → Fin 4 → BitVec 32) (l : Fin lanes)
    (i : Fin 4) : dword (ofDwords f) l i = f l i := by
  apply ext_dwordByte
  intro j hj
  rw [dwordByte_dword _ _ _ hj, ofDwords]
  have hval : (Fin.ofNat 16 (4 * i + j)).val = 4 * i + j := by
    rw [Fin.val_ofNat]
    omega
  congr 2
  · apply Fin.ext
    simp only [hval]
    omega
  · omega

/-- A byte of a vector is one of its double word. -/
theorem eq_dwordByte_dword {lanes : ℕ} (v : Vec lanes) (l : Fin lanes) (k : Fin 16) {j : ℕ}
    (hj : j < 4) (hk : k.val = 4 * (k.val / 4) + j) :
    v l k = dwordByte (dword v l ⟨k / 4, by omega⟩) j := by
  rw [dwordByte_dword _ _ _ hj]
  congr 1
  apply Fin.ext
  rw [Fin.val_ofNat, Nat.mod_eq_of_lt (by simp only; omega)]
  exact hk

/-- Masks and shifts exchange the bytes of a double word. -/
theorem dwordByte_masks (p : Dword) {j : ℕ} (hj : j < 4) :
    dwordByte p j &&& dwordByte 0xff00ff00 j |||
      dwordByte (p >>> 16) j &&& dwordByte 0x000000ff j |||
      dwordByte (p <<< 24 >>> 8) j = dwordByte p (swapByte j) := by
  have hright : dwordByte (p >>> 16) j = dwordByte p (j + 2) := dwordByte_ushiftRight p 2 j
  have hleft : dwordByte (p <<< 24 >>> 8) j = dwordByte (p <<< 24) (j + 1) :=
    dwordByte_ushiftRight _ 1 j
  have hshift : j + 1 < 4 → dwordByte (p <<< 24) (j + 1) =
      if 3 ≤ j + 1 then dwordByte p (j + 1 - 3) else 0 := dwordByte_shiftLeft p (i := 3)
  have hkeep : dwordByte 0xff00ff00 j = if j % 2 = 1 then 255 else 0 := by
    interval_cases j <;> rfl
  have hlow : dwordByte 0x000000ff j = if j = 0 then 255 else 0 := by
    interval_cases j <;> rfl
  have hand : ∀ b : BitVec 8, b &&& 255#8 = b := fun b => BitVec.and_allOnes
  rw [hright, hleft, hkeep, hlow]
  interval_cases j
  · simp [hshift (by decide), swapByte, hand]
  · simp [hshift (by decide), swapByte, hand]
  · simp [hshift (by decide), swapByte]
  · simp [dwordByte_eq_zero (p <<< 24) (j := 4) le_rfl, swapByte, hand]

theorem swapMasks_apply (v : Vec 1) (l : Fin 1) (k : Fin 16) :
    swapMasks v l k = v l (swapLane k) := by
  have hj : k.val % 4 < 4 := Nat.mod_lt _ (by decide)
  have hk := Nat.div_add_mod k.val 4
  have hswap : (swapLane k).val = 4 * (k.val / 4) + swapByte (k.val % 4) := by
    rw [← swapByte_add, hk]
    rfl
  have hdiv : (swapLane k).val / 4 = k.val / 4 := by
    have hlt := swapByte_lt (n := 1) hj
    omega
  simp only [swapMasks, por, pand, pixelKeepMask, pixelLowMask, psrld, pslld, dword_ofDwords]
  simp only [ofDwords]
  rw [eq_dwordByte_dword v l k hj hk.symm, dwordByte_masks _ hj,
    eq_dwordByte_dword v l (swapLane k) (swapByte_lt (n := 1) hj) (by rw [hdiv, hswap])]
  simp only [hdiv]

theorem sse2Block_swaps : sse2Block.Swaps := swapMasks_apply

theorem vpshufb_swaps (w : VecWidth) :
    (⟨w, fun v => vpshufb v pixelShuffleMask⟩ : Block).Swaps := by
  intro v l k
  have hmask : ∀ k : Fin 16, (pixelShuffleMask l k).msb = false ∧
      Fin.ofNat 16 (pixelShuffleMask l k).toNat = swapLane k := by
    unfold pixelShuffleMask swapLane
    decide
  simp only [vpshufb, (hmask k).1, (hmask k).2, Bool.false_eq_true, if_false]

theorem avx2Block_swaps : avx2Block.Swaps := vpshufb_swaps .ymm

theorem avx512Block_swaps : avx512Block.Swaps := vpshufb_swaps .zmm

theorem Block.Swaps.run {b : Block} (h : b.Swaps) (m : Memory) (dst src : Word) :
    b.run m dst src = transfer swapByte m dst src (16 * b.width.lanes) := by
  have hpermute : b.permute (load m src) = fun l k => (load m src : Vec _) l (swapLane k) := by
    funext l k
    exact h _ l k
  rw [Block.run, hpermute]
  apply store_load
  intro l k
  rw [show 16 * l = 4 * (4 * l) by omega]
  exact swapByte_add _ _

/-- The scalar code is a block of one pixel. -/
theorem scalar_eq_transfer (m : Memory) (dst src : Word) :
    store32 m dst (bswap32 ((load32 m src).rotateLeft 8)) = transfer swapByte m dst src 4 := by
  funext a
  unfold store32 transfer
  split_ifs with h
  · rw [dwordByte_bswap32_rotateLeft _ h, load32, dwordByte_ofBytes]
    exact swapByte_lt (n := 1) h
  · rfl

/-! ## A row -/

/-- No byte read from `n` pixels is one written to them. -/
def Disjoint (rbx rcx : Word) (n : ℕ) : Prop :=
  ∀ i < 4 * n, ∀ j < 4 * n, rcx + BitVec.ofNat 64 i ≠ rbx + BitVec.ofNat 64 j

theorem pixelAt_eq (row : Word) (x : Dword) :
    pixelAt row x = row + BitVec.ofNat 64 (4 * x.toNat) := by
  unfold pixelAt
  bv_omega

/-- `n` pixels from pixel `x` on, once those before are done. -/
theorem Disjoint.transfer {rbx rcx : Word} {width n : ℕ} {x : Dword} (h : Disjoint rbx rcx width)
    (hle : x.toNat + n ≤ width) (hwidth : width < 2 ^ 31) (m : Memory) :
    ByteMemory.transfer swapByte (ByteMemory.transfer swapByte m rbx rcx (4 * x.toNat))
        (pixelAt rbx x) (pixelAt rcx x) (4 * n) =
      ByteMemory.transfer swapByte m rbx rcx (4 * (x.toNat + n)) := by
  rw [pixelAt_eq, pixelAt_eq, Nat.mul_add]
  apply transfer_transfer
  · intro o ho
    exact swapByte_add _ _
  · omega
  · intro o ho
    have hsource : swapByte (4 * x.toNat + o) < 4 * width := swapByte_lt (by omega)
    by_contra hlt
    refine h _ hsource (rcx + BitVec.ofNat 64 (swapByte (4 * x.toNat + o)) - rbx).toNat ?_ ?_
    · omega
    · bv_omega

theorem slt_eq_true_iff {a p : Dword} (ha : a.toNat < 2 ^ 31) (hp : p.toNat < 2 ^ 31) :
    a.slt p = true ↔ a.toNat < p.toNat := by
  rw [← Bool.not_eq_false, slt_eq_false_iff hp]
  omega

theorem colLoop_spec {blocks : List Block} (hswaps : ∀ b ∈ blocks, b.Swaps) {rcx rbx : Word}
    {width x : Dword} (h : Disjoint rbx rcx width.toNat) (hwidth : width.toNat < 2 ^ 31)
    (hx : x.toNat ≤ width.toNat) (m : Memory) :
    ∃ x' : Dword, x'.toNat ≤ width.toNat ∧
      colLoop blocks rcx rbx width x (transfer swapByte m rbx rcx (4 * x.toNat)) =
        (x', transfer swapByte m rbx rcx (4 * x'.toNat)) := by
  induction hleft : width.toNat - x.toNat using Nat.strong_induction_on generalizing x with
  | _ left ih =>
      rw [colLoop]
      split
      · exact ⟨x, hx, rfl⟩
      · rename_i b hfind
        have hpixels := b.toNat_pixels
        have hpos := b.width.lanes_pos
        have hle := b.width.lanes_le
        have hroom := List.find?_some hfind
        rw [Bool.not_eq_true', slt_eq_false_iff (by omega)] at hroom
        have hnext : (x + b.pixels).toNat = x.toNat + 4 * b.width.lanes := by bv_omega
        have hfits : x.toNat + 4 * b.width.lanes ≤ width.toNat := by bv_omega
        rw [(hswaps b (List.mem_of_find?_eq_some hfind)).run,
          show 16 * b.width.lanes = 4 * (4 * b.width.lanes) by omega, h.transfer hfits hwidth,
          ← hnext]
        exact ih _ (by omega) (by omega) rfl

theorem scalarTail_spec {rcx rbx : Word} {width x : Dword} (h : Disjoint rbx rcx width.toNat)
    (hwidth : width.toNat < 2 ^ 31) (hx : x.toNat ≤ width.toNat) (m : Memory) :
    scalarTail rcx rbx width x (transfer swapByte m rbx rcx (4 * x.toNat)) =
      transfer swapByte m rbx rcx (4 * width.toNat) := by
  induction hleft : width.toNat - x.toNat using Nat.strong_induction_on generalizing x with
  | _ left ih =>
      rw [scalarTail]
      cases hlt : x.slt width with
      | true =>
          have hroom := (slt_eq_true_iff (by omega) hwidth).mp hlt
          have hnext : (x + 1).toNat = x.toNat + 1 := by bv_omega
          have hpixel := h.transfer (x := x) (n := 1) (by omega) hwidth m
          rw [if_pos rfl]
          simp only [scalar_eq_transfer]
          rw [hpixel, ← hnext]
          exact ih _ (by omega) (by omega) rfl
      | false =>
          have hge := ((slt_eq_false_iff hwidth).mp hlt).1
          rw [if_neg (by decide), Nat.le_antisymm hx hge]

theorem row_eq_transfer {blocks : List Block} (hswaps : ∀ b ∈ blocks, b.Swaps) {rcx rbx : Word}
    {width : Dword} (h : Disjoint rbx rcx width.toNat) (hwidth : width.toNat < 2 ^ 31)
    (m : Memory) :
    let row := colLoop blocks rcx rbx width 0 m
    scalarTail rcx rbx width row.1 row.2 = transfer swapByte m rbx rcx (4 * width.toNat) := by
  obtain ⟨x, hx, hrow⟩ := colLoop_spec hswaps h hwidth (x := 0) (Nat.zero_le _) m
  have hstart : transfer swapByte m rbx rcx (4 * (0 : Dword).toNat) = m :=
    transfer_zero _ _ _ _
  rw [hstart] at hrow
  simp only [hrow]
  exact scalarTail_spec h hwidth hx m

end Redraw
end SubleqEmu
