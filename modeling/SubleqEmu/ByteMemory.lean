import Mathlib.Data.BitVec
import Mathlib.Logic.Function.Basic
import Mathlib.Tactic.IntervalCases

/-!
# Bytes and words

A memory of bytes over 64-bit addresses, read and written by big-endian words at
any alignment.  Addresses wrap around.
-/

namespace ByteMemory

abbrev Memory := BitVec 64 → BitVec 8

/-- The byte of a word at an offset from its address. -/
def byteAt (v : BitVec 64) (k : ℕ) : BitVec 8 := v.extractLsb' (56 - 8 * k) 8

def read (m : Memory) (a : BitVec 64) : BitVec 64 :=
  (m a).setWidth 64 <<< 56 ||| (m (a + 1)).setWidth 64 <<< 48 |||
    (m (a + 2)).setWidth 64 <<< 40 ||| (m (a + 3)).setWidth 64 <<< 32 |||
    (m (a + 4)).setWidth 64 <<< 24 ||| (m (a + 5)).setWidth 64 <<< 16 |||
    (m (a + 6)).setWidth 64 <<< 8 ||| (m (a + 7)).setWidth 64

def write (m : Memory) (a v : BitVec 64) : Memory := fun x =>
  if (x - a).toNat < 8 then byteAt v (x - a).toNat else m x

/-- The words at the two addresses share no byte. -/
def Apart (a b : BitVec 64) : Prop := 8 ≤ (a - b).toNat ∧ 8 ≤ (b - a).toNat

instance (a b : BitVec 64) : Decidable (Apart a b) :=
  inferInstanceAs (Decidable (_ ∧ _))

theorem Apart.symm {a b : BitVec 64} (h : Apart a b) : Apart b a := ⟨h.2, h.1⟩

/-- Addresses of words on word boundaries are apart if they differ. -/
theorem apart_of_ne {a b : BitVec 64} (ha : a.toNat % 8 = 0) (hb : b.toNat % 8 = 0)
    (hne : a ≠ b) : Apart a b := by
  have hne' : a.toNat ≠ b.toNat := fun h => hne (BitVec.eq_of_toNat_eq h)
  unfold Apart
  bv_omega

/-! ## Alignment -/

theorem and_not_seven (v : BitVec 64) : v &&& ~~~7#64 = (v >>> 3) <<< 3 := by
  apply BitVec.eq_of_getLsbD_eq
  intro i hi
  have h7 : (7#64).getLsbD i = decide (i < 3) := by
    interval_cases i <;> rfl
  simp only [BitVec.getLsbD_and, BitVec.getLsbD_not, BitVec.getLsbD_shiftLeft,
    BitVec.getLsbD_ushiftRight, h7, hi, decide_true, Bool.true_and]
  by_cases h : i < 3
  · simp [h]
  · simp [h, show 3 + (i - 3) = i by omega]

theorem toNat_and_not_seven (v : BitVec 64) : (v &&& ~~~7#64).toNat = v.toNat / 8 * 8 := by
  rw [and_not_seven]
  bv_omega

theorem toNat_and_seven (v : BitVec 64) : (v &&& 7).toNat = v.toNat % 8 := by
  rw [BitVec.toNat_and]
  exact Nat.and_two_pow_sub_one_eq_mod v.toNat 3

/-! ## Bytes of words -/

theorem getLsbD_byteAt (v : BitVec 64) (k i : ℕ) (hi : i < 8) :
    (byteAt v k).getLsbD i = v.getLsbD (56 - 8 * k + i) := by
  simp [byteAt, hi]

theorem ext_byteAt {v w : BitVec 64} (h : ∀ k < 8, byteAt v k = byteAt w k) : v = w := by
  apply BitVec.eq_of_getLsbD_eq
  intro i hi
  have hbyte := congrArg (fun b => BitVec.getLsbD b (i % 8)) (h (7 - i / 8) (by omega))
  simp only [getLsbD_byteAt _ _ _ (Nat.mod_lt i (by omega : 0 < 8))] at hbyte
  rwa [show 56 - 8 * (7 - i / 8) + i % 8 = i by omega] at hbyte

theorem byteAt_read (m : Memory) (a : BitVec 64) {k : ℕ} (hk : k < 8) :
    byteAt (read m a) k = m (a + BitVec.ofNat 64 k) := by
  apply BitVec.eq_of_getLsbD_eq
  intro i hi
  rw [getLsbD_byteAt _ _ _ hi, read]
  interval_cases k <;> interval_cases i <;> simp

theorem read_congr {m m' : Memory} {a : BitVec 64}
    (h : ∀ k < 8, m' (a + BitVec.ofNat 64 k) = m (a + BitVec.ofNat 64 k)) :
    read m' a = read m a := by
  apply ext_byteAt
  intro k hk
  rw [byteAt_read _ _ hk, byteAt_read _ _ hk, h k hk]

/-- A byte of a word that reads the same. -/
theorem byte_congr {m m' : Memory} {a x : BitVec 64} (h : read m' a = read m a)
    (hx : (x - a).toNat < 8) : m' x = m x := by
  have hbyte := byteAt_read m a hx
  have hbyte' := byteAt_read m' a hx
  rw [h, hbyte] at hbyte'
  rw [show a + BitVec.ofNat 64 (x - a).toNat = x by bv_omega] at hbyte'
  exact hbyte'.symm

theorem read_write_self (m : Memory) (a v : BitVec 64) : read (write m a v) a = v := by
  apply ext_byteAt
  intro k hk
  have hoffset : (a + BitVec.ofNat 64 k - a).toNat = k := by bv_omega
  rw [byteAt_read _ _ hk, write, hoffset, if_pos hk]

theorem read_write_apart (m : Memory) {a b : BitVec 64} (v : BitVec 64) (h : Apart a b) :
    read (write m a v) b = read m b := by
  apply read_congr
  intro k hk
  rw [write, if_neg]
  obtain ⟨h, h'⟩ := h
  bv_omega

/-- Memory in which a word is replaced by itself. -/
theorem write_read (m : Memory) (a : BitVec 64) : write m a (read m a) = m := by
  funext x
  unfold write
  split_ifs with hx
  · rw [byteAt_read _ _ hx]
    congr 1
    bv_omega
  · rfl

theorem write_write (m : Memory) (a v w : BitVec 64) :
    write (write m a v) a w = write m a w := by
  funext x
  unfold write
  split_ifs <;> rfl

/-! ## Byte order -/

/-- The bytes of a word in the opposite order. -/
def bswap (v : BitVec 64) : BitVec 64 := read (fun a => byteAt v (7 - a.toNat)) 0

theorem byteAt_bswap (v : BitVec 64) {k : ℕ} (hk : k < 8) :
    byteAt (bswap v) k = byteAt v (7 - k) := by
  have hoffset : (0 + BitVec.ofNat 64 k).toNat = k := by bv_omega
  rw [bswap, byteAt_read _ _ hk, hoffset]

theorem bswap_bswap (v : BitVec 64) : bswap (bswap v) = v := by
  apply ext_byteAt
  intro k hk
  rw [byteAt_bswap _ hk, byteAt_bswap _ (by omega), show 7 - (7 - k) = k by omega]

end ByteMemory
