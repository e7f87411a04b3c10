import SubleqEmu.RedrawKernels

/-!
# The redraw kernels agree

Row by row the pixels are drawn and nothing else is written, by every kernel.
-/

namespace SubleqEmu
namespace Redraw

open ByteMemory

/-- Byte `k` of pixel `(x, y)`. -/
def pixelByte (base : Word) (pitch : Dword) (x y k : ℕ) : Word :=
  base + BitVec.ofNat 64 (4 * (y * pitch.toNat + x) + k)

/-- What the caller of a kernel promises. -/
structure Promised (dst src : Word) (width height dstPitch srcPitch : Dword) : Prop where
  width_nonneg : 0 ≤ width.toInt
  height_nonneg : 0 ≤ height.toInt
  width_le_dst : width.toInt ≤ dstPitch.toInt
  width_le_src : width.toInt ≤ srcPitch.toInt
  dst_lt : dstPitch.toInt * height.toInt < 2 ^ 31
  src_lt : srcPitch.toInt * height.toInt < 2 ^ 31
  /-- no byte that is read is one that is written -/
  disjoint : ∀ x < width.toNat, ∀ y < height.toNat, ∀ k < 4,
    ∀ x' < width.toNat, ∀ y' < height.toNat, ∀ k' < 4,
      pixelByte src srcPitch x y k ≠ pixelByte dst dstPitch x' y' k'

/-- The pixels of the first `rows` rows have been drawn, and nothing else was written. -/
structure Redrawn (dst src : Word) (dstPitch srcPitch : Dword) (width rows : ℕ)
    (m m' : Memory) : Prop where
  pixel : ∀ x < width, ∀ y < rows, ∀ k < 4,
    m' (pixelByte dst dstPitch x y k) = m (pixelByte src srcPitch x y (swapByte k))
  other : ∀ a, (∀ x < width, ∀ y < rows, ∀ k < 4, a ≠ pixelByte dst dstPitch x y k) → m' a = m a

/-- A memory is redrawn in one way. -/
theorem Redrawn.unique {dst src : Word} {dstPitch srcPitch : Dword} {width rows : ℕ}
    {m m₁ m₂ : Memory} (h₁ : Redrawn dst src dstPitch srcPitch width rows m m₁)
    (h₂ : Redrawn dst src dstPitch srcPitch width rows m m₂) : m₁ = m₂ := by
  funext a
  by_cases ha : ∀ x < width, ∀ y < rows, ∀ k < 4, a ≠ pixelByte dst dstPitch x y k
  · rw [h₁.other a ha, h₂.other a ha]
  · push Not at ha
    obtain ⟨x, hx, y, hy, k, hk, rfl⟩ := ha
    rw [h₁.pixel x hx y hy k hk, h₂.pixel x hx y hy k hk]

section Rows

variable {dst src : Word} {width height dstPitch srcPitch : Dword}

theorem toInt_eq_of_nonneg {x : Dword} (h : 0 ≤ x.toInt) :
    x.toInt = x.toNat ∧ x.toNat < 2 ^ 31 := by
  have hx := x.isLt
  rw [BitVec.toInt_eq_toNat_cond] at *
  split_ifs at * <;> omega

theorem Promised.bounds (h : Promised dst src width height dstPitch srcPitch) :
    width.toNat < 2 ^ 31 ∧ height.toNat < 2 ^ 31 ∧ width.toNat ≤ dstPitch.toNat ∧
      width.toNat ≤ srcPitch.toNat ∧ dstPitch.toNat * height.toNat < 2 ^ 31 ∧
      srcPitch.toNat * height.toNat < 2 ^ 31 := by
  have hwidth := toInt_eq_of_nonneg h.width_nonneg
  have hheight := toInt_eq_of_nonneg h.height_nonneg
  have hdst := toInt_eq_of_nonneg (h.width_nonneg.trans h.width_le_dst)
  have hsrc := toInt_eq_of_nonneg (h.width_nonneg.trans h.width_le_src)
  have hwd := h.width_le_dst
  have hws := h.width_le_src
  have hd := h.dst_lt
  have hs := h.src_lt
  rw [hdst.1, hheight.1] at hd
  rw [hsrc.1, hheight.1] at hs
  refine ⟨hwidth.2, hheight.2, by omega, by omega, by exact_mod_cast hd, by exact_mod_cast hs⟩

/-- The address of a row is that of its first pixel. -/
theorem rowAt_eq {base : Word} {pitch y : Dword} {height : ℕ} (hy : y.toNat < height)
    (hlt : pitch.toNat * height < 2 ^ 31) (x k : ℕ) :
    pixelAt base (y * pitch) + BitVec.ofNat 64 (4 * x + k) = pixelByte base pitch x y.toNat k := by
  have hmul : y.toNat * pitch.toNat < 2 ^ 31 := by
    calc y.toNat * pitch.toNat ≤ height * pitch.toNat := Nat.mul_le_mul_right _ hy.le
      _ < 2 ^ 31 := by rwa [Nat.mul_comm]
  have hrow : (y * pitch).toNat = y.toNat * pitch.toNat := by
    rw [BitVec.toNat_mul, Nat.mod_eq_of_lt (by omega)]
  rw [pixelAt_eq, hrow, pixelByte, BitVec.add_assoc, ← BitVec.ofNat_add]
  congr 2
  omega

theorem pixelAt_row_eq {base : Word} {pitch y : Dword} {height : ℕ} (hy : y.toNat < height)
    (hlt : pitch.toNat * height < 2 ^ 31) :
    pixelAt base (y * pitch) = pixelByte base pitch 0 y.toNat 0 := by
  rw [← rowAt_eq hy hlt]
  simp

/-- A row ends before the next one begins. -/
theorem mul_pitch_lt {pitch : Dword} {height y y' : ℕ} (hy : y < y') (hy' : y' < height)
    (hlt : pitch.toNat * height < 2 ^ 31) :
    y * pitch.toNat + pitch.toNat ≤ y' * pitch.toNat ∧
      y' * pitch.toNat + pitch.toNat < 2 ^ 31 := by
  constructor
  · rw [← Nat.succ_mul]
    exact Nat.mul_le_mul_right _ hy
  · calc y' * pitch.toNat + pitch.toNat = (y' + 1) * pitch.toNat := (Nat.succ_mul _ _).symm
      _ ≤ height * pitch.toNat := Nat.mul_le_mul_right _ hy'
      _ < 2 ^ 31 := by rwa [Nat.mul_comm]

theorem row_le_offset {base : Word} {pitch : Dword} {width height x y y' k : ℕ}
    (hy : y < y') (hy' : y' < height) (hx : x < width) (hk : k < 4) (hwidth : width ≤ pitch.toNat)
    (hlt : pitch.toNat * height < 2 ^ 31) :
    4 * width ≤ (pixelByte base pitch x y k - pixelByte base pitch 0 y' 0).toNat := by
  have hrows := mul_pitch_lt hy hy' hlt
  unfold pixelByte
  generalize y * pitch.toNat = start at *
  generalize y' * pitch.toNat = start' at *
  generalize pitch.toNat = p at *
  bv_omega

theorem Promised.redrawn_row (h : Promised dst src width height dstPitch srcPitch) {y : Dword}
    (hy : y.toNat < height.toNat) {m m' : Memory}
    (hrows : Redrawn dst src dstPitch srcPitch width.toNat y.toNat m m') :
    Redrawn dst src dstPitch srcPitch width.toNat (y.toNat + 1) m
      (transfer swapByte m' (pixelAt dst (y * dstPitch)) (pixelAt src (y * srcPitch))
        (4 * width.toNat)) := by
  obtain ⟨hwidth, -, hwd, -, hdst, hsrc⟩ := h.bounds
  constructor
  · intro x hx y' hy' k hk
    rcases Nat.lt_or_ge y'.succ (y.toNat + 1) with hlt | hge
    · rw [transfer_of_le, hrows.pixel x hx y' (by omega) k hk]
      rw [pixelAt_row_eq hy hdst]
      exact row_le_offset (by omega) hy hx hk hwd hdst
    · obtain rfl : y' = y.toNat := by omega
      have hoffset : (pixelByte dst dstPitch x y.toNat k - pixelAt dst (y * dstPitch)).toNat =
          4 * x + k := by
        rw [← rowAt_eq hy hdst]
        bv_omega
      have hswap := swapByte_lt (n := 1) hk
      rw [transfer_of_lt (by omega), hoffset, swapByte_add, rowAt_eq hy hsrc]
      apply hrows.other
      intro x' hx' y' hy' k' hk'
      exact h.disjoint x hx y.toNat hy _ hswap x' hx' y' (by omega) k' hk'
  · intro a ha
    rw [transfer_of_le]
    · exact hrows.other a fun x hx y' hy' => ha x hx y' (by omega)
    · by_contra hlt
      refine ha ((a - pixelAt dst (y * dstPitch)).toNat / 4) (by omega) y.toNat (by omega)
        ((a - pixelAt dst (y * dstPitch)).toNat % 4) (by omega) ?_
      rw [← rowAt_eq hy hdst, Nat.div_add_mod]
      bv_omega

theorem Promised.disjoint_row (h : Promised dst src width height dstPitch srcPitch) {y : Dword}
    (hy : y.toNat < height.toNat) :
    Disjoint (pixelAt dst (y * dstPitch)) (pixelAt src (y * srcPitch)) width.toNat := by
  obtain ⟨-, -, -, -, hdst, hsrc⟩ := h.bounds
  intro i hi j hj
  have hbytes := h.disjoint (i / 4) (by omega) y.toNat hy (i % 4) (by omega)
    (j / 4) (by omega) y.toNat hy (j % 4) (by omega)
  rwa [← rowAt_eq hy hdst, ← rowAt_eq hy hsrc, Nat.div_add_mod, Nat.div_add_mod] at hbytes

theorem Promised.rowLoop (h : Promised dst src width height dstPitch srcPitch)
    {blocks : List Block} (hswaps : ∀ b ∈ blocks, b.Swaps) {y : Dword}
    (hy : y.toNat ≤ height.toNat) {m m' : Memory}
    (hrows : Redrawn dst src dstPitch srcPitch width.toNat y.toNat m m') :
    Redrawn dst src dstPitch srcPitch width.toNat height.toNat m
      (rowLoop blocks dst src width height dstPitch srcPitch y m') := by
  obtain ⟨hwidth, hheight, -⟩ := h.bounds
  induction hleft : height.toNat - y.toNat using Nat.strong_induction_on generalizing y m' with
  | _ left ih =>
      rw [Redraw.rowLoop]
      cases hlt : y.slt height with
      | true =>
          have hroom := (slt_eq_true_iff (by omega) hheight).mp hlt
          have hnext : (y + 1).toNat = y.toNat + 1 := by bv_omega
          have hrow := h.redrawn_row hroom hrows
          rw [← hnext] at hrow
          rw [if_pos rfl]
          simp only [row_eq_transfer hswaps (h.disjoint_row hroom) hwidth]
          exact ih _ (by omega) (by omega) hrow rfl
      | false =>
          have hge := ((slt_eq_false_iff hheight).mp hlt).1
          rw [if_neg (by decide), ← Nat.le_antisymm hy hge]
          exact hrows

theorem Promised.redrawn (h : Promised dst src width height dstPitch srcPitch)
    {blocks : List Block} (hswaps : ∀ b ∈ blocks, b.Swaps) (m : Memory) :
    Redrawn dst src dstPitch srcPitch width.toNat height.toNat m
      (Redraw.rowLoop blocks dst src width height dstPitch srcPitch 0 m) :=
  h.rowLoop hswaps (Nat.zero_le _)
    ⟨fun _ _ y hy => absurd hy (Nat.not_lt_zero y), fun _ _ => rfl⟩

theorem Promised.redrawn_sse2 (h : Promised dst src width height dstPitch srcPitch)
    (m : Memory) : Redrawn dst src dstPitch srcPitch width.toNat height.toNat m
      (screenRedrawSse2 m dst src width height dstPitch srcPitch) :=
  h.redrawn (by simpa using sse2Block_swaps) m

theorem Promised.redrawn_avx2 (h : Promised dst src width height dstPitch srcPitch)
    (m : Memory) : Redrawn dst src dstPitch srcPitch width.toNat height.toNat m
      (screenRedrawAvx2 m dst src width height dstPitch srcPitch) :=
  h.redrawn (by simpa using avx2Block_swaps) m

theorem Promised.redrawn_avx512 (h : Promised dst src width height dstPitch srcPitch)
    (m : Memory) : Redrawn dst src dstPitch srcPitch width.toNat height.toNat m
      (screenRedrawAvx512 m dst src width height dstPitch srcPitch) :=
  h.redrawn (by simpa using ⟨avx512Block_swaps, avx2Block_swaps⟩) m

end Rows

/-- Every kernel redraws the screen, and so they leave the same memory. -/
theorem kernels_agree {dst src : Word} {width height dstPitch srcPitch : Dword}
    (h : Promised dst src width height dstPitch srcPitch) (m : Memory) :
    let m' := screenRedrawSse2 m dst src width height dstPitch srcPitch
    Redrawn dst src dstPitch srcPitch width.toNat height.toNat m m' ∧
      screenRedrawAvx2 m dst src width height dstPitch srcPitch = m' ∧
      screenRedrawAvx512 m dst src width height dstPitch srcPitch = m' := by
  have hsse2 := h.redrawn_sse2 m
  exact ⟨hsse2, (h.redrawn_avx2 m).unique hsse2, (h.redrawn_avx512 m).unique hsse2⟩

/-- Two rows of 29 pixels, which are 16, 8 and 5. -/
theorem kernels_agree_twoRows :
    screenRedrawAvx512 (fun a => a.setWidth 8) 0x100000 0x200000 29 2 32 40 =
      screenRedrawSse2 (fun a => a.setWidth 8) 0x100000 0x200000 29 2 32 40 := by
  refine (kernels_agree ⟨by decide, by decide, by decide, by decide, by decide, by decide, ?_⟩
    (fun a => a.setWidth 8)).2.2
  intro x hx y hy k hk x' hx' y' hy' k' hk'
  have hwidth : (29 : Dword).toNat = 29 := rfl
  have hheight : (2 : Dword).toNat = 2 := rfl
  have hdst : (32 : Dword).toNat = 32 := rfl
  have hsrc : (40 : Dword).toNat = 40 := rfl
  unfold pixelByte
  bv_omega

end Redraw
end SubleqEmu
