import SubleqEmu.RedrawAgreement
import SubleqEmu.ScreenCursor

/-!
# The screen as the kernels draw it

The buffers of the screen are memory to the redraw kernels.  Each of them leaves
in the bytes of `antibuffer0` what `screenRedraw` leaves in its pixels.
-/

namespace SubleqEmu
namespace Screen

open ByteMemory Redraw

/-- The pixel is in memory, at its index of the buffer at `base`. -/
def Stored (m : Memory) (base : BitVec 64) (i : ℕ) (p : Pixel) : Prop :=
  ∀ k < 4, m (base + BitVec.ofNat 64 (4 * i + k)) = dwordByte p k

theorem dwordByte_shuffle (p : Pixel) {k : ℕ} (hk : k < 4) :
    dwordByte (shuffle p) k = dwordByte p (swapByte k) := by
  have hbyte : dwordByte (shuffle p) k = dwordByte (p.rotateLeft 8) (3 - k) := by
    apply BitVec.eq_of_getLsbD_eq
    intro i hi
    simp only [shuffle, getLsbD_dwordByte, BitVec.getLsbD_append, BitVec.getLsbD_extractLsb']
    interval_cases k <;> interval_cases i <;> simp
  rw [hbyte, ← dwordByte_bswap32_rotateLeft p hk, bswap32, dwordByte_ofBytes _ hk]

section Kernels

variable {dst src : Redraw.Word} {width height dstPitch srcPitch : Dword} {m m' : Memory}

/-- The bytes of pixels of different places are at different addresses. -/
theorem pixelByte_inj {base : Redraw.Word} {pitch : Dword} {x y k x' y' k' : ℕ}
    (hx : x < pitch.toNat) (hx' : x' < pitch.toNat) (hk : k < 4) (hk' : k' < 4)
    (hlt : y * pitch.toNat + pitch.toNat < 2 ^ 31)
    (hlt' : y' * pitch.toNat + pitch.toNat < 2 ^ 31)
    (heq : pixelByte base pitch x y k = pixelByte base pitch x' y' k') : x = x' := by
  have hoffset : 4 * (y * pitch.toNat + x) + k = 4 * (y' * pitch.toNat + x') + k' := by
    have hnat := congrArg BitVec.toNat (add_left_cancel heq)
    rwa [BitVec.toNat_ofNat, BitVec.toNat_ofNat, Nat.mod_eq_of_lt (by omega),
      Nat.mod_eq_of_lt (by omega)] at hnat
  have hindex : y * pitch.toNat + x = y' * pitch.toNat + x' := by omega
  have hmod := congrArg (· % pitch.toNat) hindex
  simpa [Nat.mul_add_mod', Nat.mod_eq_of_lt hx, Nat.mod_eq_of_lt hx'] using hmod

/-- Memory that is redrawn holds what the model draws. -/
theorem stored_of_redrawn (h : Promised dst src width height dstPitch srcPitch)
    (hredrawn : Redrawn dst src dstPitch srcPitch width.toNat height.toNat m m')
    {buffer frame : Buffer}
    (hframe : ∀ x < width.toNat, ∀ y < height.toNat,
      Stored m src (y * srcPitch.toNat + x) (frame (y * srcPitch.toNat + x)))
    (hbuffer : ∀ i < height.toNat * dstPitch.toNat, Stored m dst i (buffer i)) :
    ∀ i < height.toNat * dstPitch.toNat, Stored m' dst i
      (screenRedraw buffer frame width.toNat height.toNat dstPitch.toNat srcPitch.toNat i) := by
  obtain ⟨-, -, hwidth, -, hdst, hsrc⟩ := h.bounds
  intro i hi
  have hpos : 0 < dstPitch.toNat := Nat.pos_of_mul_pos_left (Nat.zero_lt_of_lt hi)
  obtain ⟨x, y, hx, rfl⟩ : ∃ x y, x < dstPitch.toNat ∧ y * dstPitch.toNat + x = i :=
    ⟨i % dstPitch.toNat, i / dstPitch.toNat, Nat.mod_lt _ hpos, Nat.div_add_mod' ..⟩
  have hy : y < height.toNat := by
    by_contra hge
    have := Nat.mul_le_mul_right dstPitch.toNat (Nat.le_of_not_lt hge)
    omega
  rw [Nat.mul_comm] at hdst hsrc
  rw [screenRedraw_apply hwidth (by omega) hx]
  intro k hk
  change m' (pixelByte dst dstPitch x y k) = _
  by_cases hdrawn : x < width.toNat
  · have hrow : y * srcPitch.toNat < 2 ^ 31 :=
      (Nat.mul_le_mul_right srcPitch.toNat hy.le).trans_lt hsrc
    rw [if_pos ⟨hdrawn, hy⟩, Nat.mod_eq_of_lt (by omega), dwordByte_shuffle _ hk,
      hredrawn.pixel x hdrawn y hy k hk]
    exact hframe x hdrawn y hy _ (swapByte_lt (n := 1) hk)
  · rw [if_neg (fun hboth => hdrawn hboth.1), hredrawn.other]
    · exact hbuffer _ hi k hk
    · intro x' hx' y' hy' k' hk' heq
      have hlast : ∀ {row : ℕ}, row < height.toNat →
          row * dstPitch.toNat + dstPitch.toNat < 2 ^ 31 := by
        intro row hrow
        rw [← Nat.succ_mul]
        exact (Nat.mul_le_mul_right _ hrow).trans_lt hdst
      have := pixelByte_inj hx (hx'.trans_le hwidth) hk hk' (hlast hy) (hlast hy') heq
      omega

/-- Whichever kernel is chosen, `antibuffer0` in memory is as in the model. -/
theorem kernels_draw (h : Promised dst src width height dstPitch srcPitch)
    {buffer frame : Buffer}
    (hframe : ∀ x < width.toNat, ∀ y < height.toNat,
      Stored m src (y * srcPitch.toNat + x) (frame (y * srcPitch.toNat + x)))
    (hbuffer : ∀ i < height.toNat * dstPitch.toNat, Stored m dst i (buffer i)) :
    ∀ kernel ∈ [screenRedrawSse2, screenRedrawAvx2, screenRedrawAvx512],
      ∀ i < height.toNat * dstPitch.toNat,
        Stored (kernel m dst src width height dstPitch srcPitch) dst i
          (screenRedraw buffer frame width.toNat height.toNat dstPitch.toNat srcPitch.toNat
            i) := by
  intro kernel hkernel
  simp only [List.mem_cons, List.not_mem_nil, or_false] at hkernel
  rcases hkernel with rfl | rfl | rfl
  · exact stored_of_redrawn h (h.redrawn_sse2 m) hframe hbuffer
  · exact stored_of_redrawn h (h.redrawn_avx2 m) hframe hbuffer
  · exact stored_of_redrawn h (h.redrawn_avx512 m) hframe hbuffer

end Kernels

end Screen
end SubleqEmu
