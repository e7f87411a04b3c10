import SubleqEmu.VectorMemory

/-!
# Instructions on vectors

The packed instructions that permute the bytes of pixels, and their scalar
counterparts on double words, as what they leave in each byte.
-/

namespace ByteMemory

variable {lanes : ℕ}

/-- Byte `j` of a double word, the lowest first. -/
def dwordByte (p : BitVec 32) (j : ℕ) : BitVec 8 := p.extractLsb' (8 * j) 8

def ofBytes (b : ℕ → BitVec 8) : BitVec 32 :=
  ((b 3).setWidth 32 <<< 24) ||| ((b 2).setWidth 32 <<< 16) ||| ((b 1).setWidth 32 <<< 8) |||
    (b 0).setWidth 32

def load32 (m : Memory) (a : BitVec 64) : BitVec 32 := ofBytes fun j => m (a + BitVec.ofNat 64 j)

def store32 (m : Memory) (a : BitVec 64) (p : BitVec 32) : Memory := fun x =>
  if (x - a).toNat < 4 then dwordByte p (x - a).toNat else m x

def bswap32 (p : BitVec 32) : BitVec 32 := ofBytes fun j => dwordByte p (3 - j)

/-! ## Packed instructions -/

theorem neZero_laneBytes : NeZero 16 := ⟨by decide⟩

attribute [local instance] neZero_laneBytes

def dword (v : Vec lanes) (l : Fin lanes) (i : Fin 4) : BitVec 32 :=
  ofBytes fun j => v l (Fin.ofNat 16 (4 * i + j))

def ofDwords (f : Fin lanes → Fin 4 → BitVec 32) : Vec lanes := fun l k =>
  dwordByte (f l ⟨k / 4, by omega⟩) (k % 4)

def pand (v w : Vec lanes) : Vec lanes := fun l k => v l k &&& w l k

def por (v w : Vec lanes) : Vec lanes := fun l k => v l k ||| w l k

def psrld (v : Vec lanes) (n : ℕ) : Vec lanes := ofDwords fun l i => dword v l i >>> n

def pslld (v : Vec lanes) (n : ℕ) : Vec lanes := ofDwords fun l i => dword v l i <<< n

/-- Each lane is shuffled by itself; a set top bit of the mask clears the byte. -/
def vpshufb (v mask : Vec lanes) : Vec lanes := fun l k =>
  if (mask l k).msb then 0 else v l (Fin.ofNat 16 (mask l k).toNat)

/-! ## Bytes -/

theorem getLsbD_dwordByte (p : BitVec 32) (j i : ℕ) :
    (dwordByte p j).getLsbD i = (decide (i < 8) && p.getLsbD (8 * j + i)) := by
  simp [dwordByte]

theorem dwordByte_ofBytes (b : ℕ → BitVec 8) {j : ℕ} (hj : j < 4) :
    dwordByte (ofBytes b) j = b j := by
  apply BitVec.eq_of_getLsbD_eq
  intro i hi
  rw [getLsbD_dwordByte, ofBytes]
  interval_cases j <;> interval_cases i <;> simp

theorem ext_dwordByte {p q : BitVec 32} (h : ∀ j < 4, dwordByte p j = dwordByte q j) :
    p = q := by
  apply BitVec.eq_of_getLsbD_eq
  intro i hi
  have hbyte := congrArg (fun b => BitVec.getLsbD b (i % 8)) (h (i / 8) (by omega))
  simpa only [getLsbD_dwordByte, Nat.div_add_mod, Nat.mod_lt i (by omega : 0 < 8), decide_true,
    Bool.true_and] using hbyte

theorem dwordByte_ushiftRight (p : BitVec 32) (i j : ℕ) :
    dwordByte (p >>> (8 * i)) j = dwordByte p (j + i) := by
  apply BitVec.eq_of_getLsbD_eq
  intro k hk
  rw [getLsbD_dwordByte, getLsbD_dwordByte, BitVec.getLsbD_ushiftRight]
  congr 2
  omega

theorem dwordByte_shiftLeft (p : BitVec 32) {i j : ℕ} (hj : j < 4) :
    dwordByte (p <<< (8 * i)) j = if i ≤ j then dwordByte p (j - i) else 0 := by
  apply BitVec.eq_of_getLsbD_eq
  intro k hk
  rw [getLsbD_dwordByte, BitVec.getLsbD_shiftLeft]
  split_ifs with hle
  · rw [getLsbD_dwordByte, show 8 * j + k - 8 * i = 8 * (j - i) + k by omega]
    simp only [hk, decide_true, Bool.true_and, show 8 * j + k < 32 by omega,
      show ¬ 8 * j + k < 8 * i by omega, decide_false, Bool.not_false]
  · simp [show 8 * j + k < 8 * i by omega]

theorem dwordByte_eq_zero (p : BitVec 32) {j : ℕ} (hj : 4 ≤ j) : dwordByte p j = 0 := by
  apply BitVec.eq_of_getLsbD_eq
  intro i hi
  rw [getLsbD_dwordByte, BitVec.getLsbD_of_ge _ _ (by omega)]
  simp

theorem dwordByte_rotateLeft (p : BitVec 32) {j : ℕ} (hj : j < 4) :
    dwordByte (p.rotateLeft 8) j = dwordByte p ((j + 3) % 4) := by
  apply BitVec.eq_of_getLsbD_eq
  intro i hi
  rw [getLsbD_dwordByte, getLsbD_dwordByte, BitVec.getLsbD_rotateLeft]
  interval_cases j <;> interval_cases i <;> simp

/-! ## Exchanging two bytes of each pixel -/

/-- The offset that the byte at an offset comes from. -/
def swapByte (o : ℕ) : ℕ :=
  if o % 4 = 0 then o + 2 else if o % 4 = 2 then o - 2 else o

theorem swapByte_add (k o : ℕ) : swapByte (4 * k + o) = 4 * k + swapByte o := by
  unfold swapByte
  split_ifs <;> omega

theorem swapByte_lt {o n : ℕ} (h : o < 4 * n) : swapByte o < 4 * n := by
  unfold swapByte
  split_ifs <;> omega

/-- Rotating a pixel and turning its bytes around. -/
theorem dwordByte_bswap32_rotateLeft (p : BitVec 32) {j : ℕ} (hj : j < 4) :
    dwordByte (bswap32 (p.rotateLeft 8)) j = dwordByte p (swapByte j) := by
  rw [bswap32, dwordByte_ofBytes _ hj, dwordByte_rotateLeft _ (by omega)]
  unfold swapByte
  interval_cases j <;> rfl

end ByteMemory
