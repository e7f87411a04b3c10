import SubleqEmu.ByteMemory

/-!
# Words across a boundary

An unaligned word is put together from the two aligned words that it spans, and a store
to it changes a part of each.
-/

namespace ByteMemory

variable {m : Memory} {a : BitVec 64} {v x y : BitVec 64} {q j : ℕ}

/-! ## Bytes of shifted words -/

theorem byteAt_or (x y : BitVec 64) (j : ℕ) : byteAt (x ||| y) j = byteAt x j ||| byteAt y j :=
  BitVec.extractLsb'_or

theorem byteAt_and (x y : BitVec 64) (j : ℕ) : byteAt (x &&& y) j = byteAt x j &&& byteAt y j :=
  BitVec.extractLsb'_and

theorem byteAt_shiftLeft (x : BitVec 64) (q : ℕ) (hj : j < 8) :
    byteAt (x <<< (8 * q)) j = if j + q < 8 then byteAt x (j + q) else 0 := by
  apply BitVec.eq_of_getLsbD_eq
  intro i hi
  rw [getLsbD_byteAt _ _ _ hi, BitVec.getLsbD_shiftLeft]
  split_ifs with h
  · rw [getLsbD_byteAt _ _ _ hi]
    have hlt : 56 - 8 * j + i < 64 := by omega
    have hge : ¬ 56 - 8 * j + i < 8 * q := by omega
    simp only [hlt, hge, decide_true, decide_false, Bool.not_false, Bool.true_and]
    congr 1
    omega
  · have hlt : 56 - 8 * j + i < 8 * q := by omega
    simp [hlt]

theorem byteAt_ushiftRight (x : BitVec 64) (hj : j < 8) :
    byteAt (x >>> (8 * q)) j = if q ≤ j then byteAt x (j - q) else 0 := by
  apply BitVec.eq_of_getLsbD_eq
  intro i hi
  rw [getLsbD_byteAt _ _ _ hi, BitVec.getLsbD_ushiftRight]
  split_ifs with h
  · rw [getLsbD_byteAt _ _ _ hi]
    congr 1
    omega
  · rw [BitVec.getLsbD_of_ge _ _ (by omega)]
    simp

theorem byteAt_allOnes (j : ℕ) (hj : j < 8) : byteAt (BitVec.allOnes 64) j = BitVec.allOnes 8 := by
  apply BitVec.eq_of_getLsbD_eq
  intro i hi
  rw [getLsbD_byteAt _ _ _ hi, BitVec.getLsbD_allOnes, BitVec.getLsbD_allOnes]
  simp only [hi, decide_true, decide_eq_true_eq]
  omega

theorem byteAt_not (x : BitVec 64) (hj : j < 8) : byteAt (~~~x) j = ~~~byteAt x j := by
  apply BitVec.eq_of_getLsbD_eq
  intro i hi
  rw [getLsbD_byteAt _ _ _ hi, BitVec.getLsbD_not, BitVec.getLsbD_not, getLsbD_byteAt _ _ _ hi]
  have hlt : 56 - 8 * j + i < 64 := by omega
  simp only [hlt, hi]

/-! ## Reading -/

/-- The word `q` bytes into the first of two. -/
theorem read_spanned (m : Memory) (lo : BitVec 64) (hq : 0 < q) (hq' : q < 8) :
    read m (lo + BitVec.ofNat 64 q) =
      read m lo <<< (8 * q) ||| read m (lo + 8) >>> (64 - 8 * q) := by
  apply ext_byteAt
  intro j hj
  rw [show 64 - 8 * q = 8 * (8 - q) by omega, byteAt_or, byteAt_shiftLeft _ _ hj,
    byteAt_ushiftRight _ hj, byteAt_read _ _ hj]
  by_cases h : j + q < 8
  · rw [if_pos h, if_neg (by omega), byteAt_read _ _ h]
    refine Eq.trans (congrArg m ?_) BitVec.or_zero.symm
    bv_omega
  · rw [if_neg h, if_pos (by omega), byteAt_read _ _ (by omega)]
    refine Eq.trans (congrArg m ?_) BitVec.zero_or.symm
    bv_omega

/-! ## Writing -/

theorem write_lo (m : Memory) (lo x : BitVec 64) (hq' : q < 8) (hj : j < 8) :
    write m (lo + BitVec.ofNat 64 q) x (lo + BitVec.ofNat 64 j) =
      if q ≤ j then byteAt x (j - q) else m (lo + BitVec.ofNat 64 j) := by
  rw [write]
  by_cases h : q ≤ j
  · have hoff : (lo + BitVec.ofNat 64 j - (lo + BitVec.ofNat 64 q)).toNat = j - q := by bv_omega
    rw [hoff, if_pos (by omega), if_pos h]
  · rw [if_neg (by bv_omega), if_neg h]

theorem write_hi (m : Memory) (lo x : BitVec 64) (hq' : q < 8) (hj : j < 8) :
    write m (lo + BitVec.ofNat 64 q) x (lo + 8 + BitVec.ofNat 64 j) =
      if j < q then byteAt x (j + (8 - q)) else m (lo + 8 + BitVec.ofNat 64 j) := by
  have hoff : (lo + 8 + BitVec.ofNat 64 j - (lo + BitVec.ofNat 64 q)).toNat = j + (8 - q) := by
    bv_omega
  rw [write, hoff]
  by_cases h : j < q
  · rw [if_pos (by omega), if_pos h]
  · rw [if_neg (by omega), if_neg h]

theorem read_write_lo (m : Memory) (lo x : BitVec 64) (hq' : q < 8) :
    read (write m (lo + BitVec.ofNat 64 q) x) lo =
      read m lo &&& ~~~(BitVec.allOnes 64 >>> (8 * q)) ||| x >>> (8 * q) := by
  apply ext_byteAt
  intro j hj
  rw [byteAt_or, byteAt_and, byteAt_not _ hj, byteAt_ushiftRight _ hj, byteAt_ushiftRight _ hj,
    byteAt_read _ _ hj, byteAt_read _ _ hj, write_lo _ _ _ hq' hj]
  by_cases h : q ≤ j
  · rw [if_pos h, if_pos h, if_pos h, byteAt_allOnes _ (by omega), BitVec.not_allOnes,
      BitVec.and_zero, BitVec.zero_or]
  · rw [if_neg h, if_neg h, if_neg h, show ~~~(0 : BitVec 8) = BitVec.allOnes 8 by rfl,
      BitVec.and_allOnes]
    exact BitVec.or_zero.symm

theorem read_write_hi (m : Memory) (lo x : BitVec 64) (hq : 0 < q) (hq' : q < 8) :
    read (write m (lo + BitVec.ofNat 64 q) x) (lo + 8) =
      read m (lo + 8) &&& BitVec.allOnes 64 >>> (8 * q) ||| x <<< (64 - 8 * q) := by
  apply ext_byteAt
  intro j hj
  rw [show 64 - 8 * q = 8 * (8 - q) by omega, byteAt_or, byteAt_and, byteAt_shiftLeft _ _ hj,
    byteAt_ushiftRight _ hj, byteAt_read _ _ hj, byteAt_read _ _ hj, write_hi _ _ _ hq' hj]
  by_cases h : j < q
  · rw [if_pos h, if_neg (by omega), if_pos (by omega), show (0 : BitVec 8) = 0#8 by rfl,
      BitVec.and_zero, BitVec.zero_or]
  · rw [if_neg h, if_pos (by omega), if_neg (by omega), byteAt_allOnes _ (by omega),
      BitVec.and_allOnes]
    exact BitVec.or_zero.symm

/-- The store as one of each of the two words. -/
theorem write_spanned (m : Memory) (lo x : BitVec 64) (hq' : q < 8) :
    write m (lo + BitVec.ofNat 64 q) x =
      write (write m lo (read (write m (lo + BitVec.ofNat 64 q) x) lo)) (lo + 8)
        (read (write m (lo + BitVec.ofNat 64 q) x) (lo + 8)) := by
  funext y
  have htwo : ∀ A B, write (write m lo A) (lo + 8) B y =
      if (y - (lo + 8)).toNat < 8 then byteAt B (y - (lo + 8)).toNat
      else if (y - lo).toNat < 8 then byteAt A (y - lo).toNat else m y := fun _ _ => rfl
  rw [htwo]
  split_ifs with h h'
  · rw [byteAt_read _ _ h]
    congr 1
    bv_omega
  · rw [byteAt_read _ _ h']
    congr 1
    bv_omega
  · rw [write, if_neg]
    bv_omega

end ByteMemory
