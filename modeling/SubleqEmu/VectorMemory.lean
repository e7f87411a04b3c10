import SubleqEmu.ByteMemory

/-!
# Vectors in memory

Vector registers as 128-bit lanes of bytes, loaded and stored at any alignment, and
what moving bytes in blocks leaves in memory.
-/

namespace ByteMemory

inductive VecWidth
  | xmm
  | ymm
  | zmm

/-- How many lanes of 128 bits there are. -/
def VecWidth.lanes : VecWidth → ℕ
  | .xmm => 1
  | .ymm => 2
  | .zmm => 4

theorem VecWidth.lanes_pos (w : VecWidth) : 0 < w.lanes := by cases w <;> decide

theorem VecWidth.lanes_le (w : VecWidth) : w.lanes ≤ 4 := by cases w <;> decide

/-- A register of so many lanes, the lowest byte of a lane first. -/
abbrev Vec (lanes : ℕ) := Fin lanes → Fin 16 → BitVec 8

def load {lanes : ℕ} (m : Memory) (a : BitVec 64) : Vec lanes := fun l k =>
  m (a + BitVec.ofNat 64 (16 * l + k))

def store {lanes : ℕ} (m : Memory) (a : BitVec 64) (v : Vec lanes) : Memory := fun x =>
  if h : (x - a).toNat < 16 * lanes then
    v ⟨(x - a).toNat / 16, by omega⟩ ⟨(x - a).toNat % 16, by omega⟩
  else m x

/--
Memory in which the first `n` bytes at `d` are bytes from `s` on as they were, the one
at an offset from the offset that `σ` gives.
-/
def transfer (σ : ℕ → ℕ) (m : Memory) (d s : BitVec 64) (n : ℕ) : Memory := fun a =>
  if (a - d).toNat < n then m (s + BitVec.ofNat 64 (σ (a - d).toNat)) else m a

theorem transfer_zero (σ : ℕ → ℕ) (m : Memory) (d s : BitVec 64) :
    transfer σ m d s 0 = m :=
  rfl

theorem transfer_of_lt {σ : ℕ → ℕ} {m : Memory} {d s a : BitVec 64} {n : ℕ}
    (h : (a - d).toNat < n) :
    transfer σ m d s n a = m (s + BitVec.ofNat 64 (σ (a - d).toNat)) :=
  if_pos h

theorem transfer_of_le {σ : ℕ → ℕ} {m : Memory} {d s a : BitVec 64} {n : ℕ}
    (h : n ≤ (a - d).toNat) : transfer σ m d s n a = m a :=
  if_neg (Nat.not_lt.mpr h)

theorem transfer_one (m : Memory) (d s : BitVec 64) :
    transfer id m d s 1 = Function.update m d (m s) := by
  funext a
  by_cases h : a = d
  · rw [h, Function.update_self, transfer_of_lt (by bv_omega)]
    simp
  · rw [Function.update_of_ne h, transfer_of_le (by bv_omega)]

/-- Two transfers in a row, the first of which leaves alone what the second reads. -/
theorem transfer_transfer {σ : ℕ → ℕ} (m : Memory) {d s : BitVec 64} {k n : ℕ}
    (hσ : ∀ o < n, σ (k + o) = k + σ o) (hle : k + n ≤ 2 ^ 64)
    (hclear : ∀ o < n, k ≤ (s + BitVec.ofNat 64 (σ (k + o)) - d).toNat) :
    transfer σ (transfer σ m d s k) (d + BitVec.ofNat 64 k) (s + BitVec.ofNat 64 k) n =
      transfer σ m d s (k + n) := by
  funext a
  have hsub : a - (d + BitVec.ofNat 64 k) = a - d - BitVec.ofNat 64 k := by bv_omega
  by_cases hk : (a - d).toNat < k
  · have hoffset : n ≤ (a - (d + BitVec.ofNat 64 k)).toNat := by
      rw [hsub]
      bv_omega
    rw [transfer_of_le hoffset, transfer_of_lt hk, transfer_of_lt (by omega)]
  · have hoffset : (a - (d + BitVec.ofNat 64 k)).toNat = (a - d).toNat - k := by
      rw [hsub]
      bv_omega
    by_cases hn : (a - d).toNat < k + n
    · have ho : (a - d).toNat - k < n := by omega
      have hread := hclear _ ho
      have hshift := hσ _ ho
      rw [Nat.add_sub_cancel' (by omega)] at hread hshift
      have hsource : s + BitVec.ofNat 64 k + BitVec.ofNat 64 (σ ((a - d).toNat - k)) =
          s + BitVec.ofNat 64 (σ (a - d).toNat) := by
        rw [hshift, BitVec.ofNat_add, BitVec.add_assoc]
      rw [transfer_of_lt (by omega), transfer_of_lt hn, hoffset, hsource, transfer_of_le hread]
    · rw [transfer_of_le (by omega), transfer_of_le (by omega), transfer_of_le (by omega)]

/-- Storing a vector whose bytes are those loaded, moved within their lanes. -/
theorem store_load {lanes : ℕ} (f : Fin 16 → Fin 16) (m : Memory) (d s : BitVec 64)
    {σ : ℕ → ℕ} (hσ : ∀ (l : ℕ) (k : Fin 16), σ (16 * l + k) = 16 * l + f k) :
    store m d (fun l k => (load m s : Vec lanes) l (f k)) = transfer σ m d s (16 * lanes) := by
  funext a
  unfold store transfer
  split_ifs with h
  · have hoffset := hσ ((a - d).toNat / 16) ⟨(a - d).toNat % 16, by omega⟩
    simp only [Nat.div_add_mod] at hoffset
    rw [hoffset]
    rfl
  · rfl

theorem store_load_apply {lanes : ℕ} (m m' : Memory) (d s a : BitVec 64) :
    store m' d (load m s : Vec lanes) a =
      if (a - d).toNat < 16 * lanes then m (s + (a - d)) else m' a := by
  unfold store load
  split_ifs with h
  · simp only [Nat.div_add_mod, BitVec.ofNat_toNat, BitVec.setWidth_eq]
  · rfl

/-- A store after a transfer, of what was loaded before it. -/
theorem store_transfer {lanes j : ℕ} (m : Memory) (d s : BitVec 64)
    (hle : j + 16 * lanes ≤ 2 ^ 64) :
    store (transfer id m d s j) (d + BitVec.ofNat 64 j)
        (load m (s + BitVec.ofNat 64 j) : Vec lanes) =
      transfer id m d s (j + 16 * lanes) := by
  funext a
  rw [store_load_apply]
  have hsub : a - (d + BitVec.ofNat 64 j) = a - d - BitVec.ofNat 64 j := by bv_omega
  rw [hsub]
  by_cases hj : (a - d).toNat < j
  · rw [if_neg (by bv_omega), transfer_of_lt hj, transfer_of_lt (by omega)]
  · by_cases hlt : (a - d).toNat < j + 16 * lanes
    · rw [if_pos (by bv_omega), transfer_of_lt hlt]
      congr 1
      simp only [id_eq]
      bv_omega
    · rw [if_neg (by bv_omega), transfer_of_le (by omega), transfer_of_le (by omega)]

end ByteMemory
