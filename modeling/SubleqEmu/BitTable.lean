import SubleqEmu.ByteMemory

/-!
# Tables of bits

A table of bits in a memory of bytes, and its bits as a little-endian word of any
length reads them.
-/

namespace BitTable

open ByteMemory

/-- Bit `w` of the table at `a`. -/
def bit (m : Memory) (a w : BitVec 64) : Bool := (m (a + w >>> 3)).getLsbD (w.toNat % 8)

/-- The little-endian number in `n` bytes. -/
def readLe (m : Memory) (a : BitVec 64) : ℕ → ℕ
  | 0 => 0
  | n + 1 => 2 ^ 8 * readLe m (a + 1) n + (m a).toNat

theorem getLsbD_bit {n : ℕ} (k i : ℕ) (hi : i < n) :
    (1#n <<< k).getLsbD i = decide (i = k) := by
  simp only [BitVec.getLsbD_shiftLeft, hi, decide_true, Bool.true_and]
  rw [BitVec.getLsbD_one]
  by_cases hk : i = k
  · simp [hk]
    omega
  · simp [hk]
    omega

theorem testBit_readLe (m : Memory) (a : BitVec 64) {n i : ℕ} (hi : i < 8 * n) :
    (readLe m a n).testBit i = (m (a + BitVec.ofNat 64 (i / 8))).getLsbD (i % 8) := by
  induction n generalizing a i with
  | zero => omega
  | succ n ih =>
      rw [readLe, Nat.testBit_two_pow_mul_add _ (m a).isLt]
      split_ifs with hlow
      · rw [Nat.div_eq_of_lt hlow, Nat.mod_eq_of_lt hlow, BitVec.add_zero]
        rfl
      · rw [ih _ (by omega), show i / 8 = (i - 8) / 8 + 1 by omega,
          show i % 8 = (i - 8) % 8 by omega, BitVec.add_assoc]
        congr 3
        bv_omega

/-- A bit as the aligned word of 32 bits has it. -/
theorem testBit_readLe_four (m : Memory) (a w : BitVec 64) :
    (readLe m (a + (w >>> 5) <<< 2) 4).testBit (w.toNat % 32) = bit m a w := by
  rw [testBit_readLe _ _ (by omega), bit, show w.toNat % 32 % 8 = w.toNat % 8 by omega,
    BitVec.add_assoc]
  congr 3
  bv_omega

/-- A bit as the aligned word of 64 bits has it. -/
theorem testBit_readLe_eight (m : Memory) (a w : BitVec 64) :
    (readLe m (a + (w >>> 6) <<< 3) 8).testBit (w.toNat % 64) = bit m a w := by
  rw [testBit_readLe _ _ (by omega), bit, show w.toNat % 64 % 8 = w.toNat % 8 by omega,
    BitVec.add_assoc]
  congr 3
  bv_omega

end BitTable
