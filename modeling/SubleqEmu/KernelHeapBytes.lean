import SubleqEmu.KernelHeapRoundTrip

/-!
# Copying between objects

`memcpy` goes byte by byte through words of memory.  Between objects it copies
the bytes and changes no other word.
-/

namespace SubleqEmu
namespace KernelHeap

open PageAllocator

/-! ## Bytes of a word -/

theorem getLsbD_byteMask (t : ℕ) : (0xff#32).getLsbD t = decide (t < 8) := by
  have hmask : (0xff#32).getLsbD t = (decide (t < 32) && Nat.testBit (2 ^ 8 - 1) t) := by
    rw [BitVec.getLsbD_ofNat]
    rfl
  rw [hmask, Nat.testBit_two_pow_sub_one]
  by_cases hlt : t < 8
  · have hlt' : t < 32 := by omega
    simp [hlt, hlt']
  · simp [hlt]

theorem extractLsb'_setByte {word : BitVec 32} {byte : BitVec 8} {j k : ℕ} (hj : j < 4)
    (hk : k < 4) : (setByte word k byte).extractLsb' (8 * j) 8 =
      if j = k then byte else word.extractLsb' (8 * j) 8 := by
  apply BitVec.eq_of_getLsbD_eq
  intro t ht
  have hbit : 8 * j + t < 32 := by omega
  simp only [setByte, BitVec.getLsbD_extractLsb', ht, decide_true, Bool.true_and,
    BitVec.getLsbD_or, BitVec.getLsbD_and, BitVec.getLsbD_not, BitVec.getLsbD_shiftLeft, hbit,
    getLsbD_byteMask, BitVec.getLsbD_setWidth]
  by_cases heq : j = k
  · subst heq
    have hlow : ¬ 8 * j + t < 8 * j := by omega
    have hsub : 8 * j + t - 8 * j = t := by omega
    have hlt : t < 32 := by omega
    simp [hlow, hsub, ht, hlt]
  · rw [if_neg heq, BitVec.getLsbD_extractLsb']
    by_cases hlow : 8 * j + t < 8 * k
    · simp [hlow, ht]
    · have hout : ¬ 8 * j + t - 8 * k < 8 := by omega
      have hzero : byte.getLsbD (8 * j + t - 8 * k) = false := BitVec.getLsbD_of_ge _ _ (by omega)
      simp [hout, hzero, ht]

theorem rd8_wr8 (s : Pmm) (p q : ℕ) (byte : BitVec 8) :
    rd8 (wr8 s p byte) q = if q = p then byte else rd8 s q := by
  unfold rd8 wr8
  simp only
  by_cases hword : q / 4 = p / 4
  · rw [hword, Function.update_self,
      extractLsb'_setByte (Nat.mod_lt _ (by decide)) (Nat.mod_lt _ (by decide))]
    have hiff : q % 4 = p % 4 ↔ q = p := by omega
    simp only [hiff]
  · rw [Function.update_of_ne hword, if_neg fun heq => hword (by rw [heq])]

theorem rd8_congr {s s' : Pmm} {p : ℕ} (h : s'.mem (p / 4) = s.mem (p / 4)) :
    rd8 s' p = rd8 s p := by
  rw [rd8, rd8, h]

/-! ## The loop of `memcpy` -/

/-- Memory after copying `n` bytes from `S` to `D`. -/
structure Copied (D S n : ℕ) (s : Pmm) (f : ℕ → BitVec 32) : Prop where
  bytes : ∀ k < n, rd8 (s.withMem f) (D + k) = rd8 s (S + k)
  frame : ∀ w, (∀ k < n, w ≠ (D + k) / 4) → f w = s.mem w

/-- The invariant of the loop is that the bytes before `i` are copied and all
others are as they were. -/
theorem memcpy_loop {offset : Offset} {dest src : Addr} {D S total : ℕ} {s : Pmm}
    (hdest : ∀ k < total, phys offset (dest + BitVec.ofNat 64 k) = D + k)
    (hsrc : ∀ k < total, phys offset (src + BitVec.ofNat 64 k) = S + k)
    (hapart : ∀ j < total, ∀ k < total, S + j ≠ D + k) (n i : ℕ) (hin : i + n = total)
    (f : ℕ → BitVec 32) (hf : Copied D S i s f)
    (hsame : ∀ q, (∀ k < i, q ≠ D + k) → rd8 (s.withMem f) q = rd8 s q) :
    ∃ g, memcpy offset dest src n i (s.withMem f) = s.withMem g ∧ Copied D S total s g := by
  induction n generalizing i f with
  | zero =>
      obtain rfl : i = total := hin
      exact ⟨f, rfl, hf⟩
  | succ n ih =>
      have hbyte : rd8 (s.withMem f) (S + i) = rd8 s (S + i) :=
        hsame _ fun k hk => hapart i (by omega) k (by omega)
      let g := (wr8 (s.withMem f) (D + i) (rd8 s (S + i))).mem
      have hg : ∀ q, rd8 (s.withMem g) q = if q = D + i then rd8 s (S + i)
          else rd8 (s.withMem f) q :=
        fun q => rd8_wr8 (s.withMem f) (D + i) q (rd8 s (S + i))
      have hstep : memcpy offset dest src (n + 1) i (s.withMem f) =
          memcpy offset dest src n (i + 1) (s.withMem g) := by
        rw [memcpy, hdest i (by omega), hsrc i (by omega), hbyte]
        rfl
      rw [hstep]
      apply ih (i + 1) (by omega) g
      · refine ⟨fun k hk => ?_, fun w hw => ?_⟩
        · rw [hg]
          by_cases hlast : k = i
          · rw [if_pos (by rw [hlast]), hlast]
          · rw [if_neg (by omega)]
            exact hf.bytes k (by omega)
        · rw [← hf.frame w fun k hk => hw k (by omega)]
          exact Function.update_of_ne (hw i (by omega)) _ _
      · intro q hq
        rw [hg, if_neg (hq i (by omega))]
        exact hsame q fun k hk => hq k (by omega)

theorem memcpy_eq {offset : Offset} {dest src : Addr} {D S n : ℕ} {s : Pmm}
    (hdest : ∀ k < n, phys offset (dest + BitVec.ofNat 64 k) = D + k)
    (hsrc : ∀ k < n, phys offset (src + BitVec.ofNat 64 k) = S + k)
    (hapart : ∀ j < n, ∀ k < n, S + j ≠ D + k) :
    ∃ f, memcpy offset dest src n 0 s = s.withMem f ∧ Copied D S n s f :=
  memcpy_loop hdest hsrc hapart n 0 (Nat.zero_add n) s.mem
    ⟨fun k hk => absurd hk (Nat.not_lt_zero k), fun _ _ => rfl⟩ fun _ _ => rfl

end KernelHeap
end SubleqEmu
