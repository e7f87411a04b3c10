import SubleqEmu.StaticMapModel

/-!
# What the tests read

Every test reads the bit or the byte that the marking sets, as long as the offset of
the page map fits the displacement of an instruction.
-/

namespace SubleqEmu
namespace StaticMap

open ByteMemory BitTable Subleq

/-! ## Operands -/

theorem signExtend_int32 {x : Word} (hx : x.toNat < 2 ^ 63) :
    (int32 x).signExtend 64 = x ↔ x.toNat < 2 ^ 31 := by
  rw [int32, ← BitVec.toNat_inj, BitVec.toNat_signExtend, BitVec.toNat_setWidth,
    BitVec.toNat_setWidth, BitVec.msb_eq_decide, BitVec.toNat_setWidth]
  simp only [decide_eq_true_eq]
  split_ifs <;> omega

/-- The shorter forms of an operand stand for the same address. -/
theorem memOperand_address (base : ℕ) (disp : BitVec 32) (a : Word) :
    (memOperand base disp).address a = a + disp.signExtend 64 := by
  unfold memOperand
  split_ifs with hzero hbyte
  · rw [hzero.1]
    exact (BitVec.add_zero a).symm
  · obtain ⟨hlow, hhigh⟩ := hbyte
    simp only [BitVec.sle_eq_decide, decide_eq_true_eq,
      show (-128 : BitVec 32).toInt = -128 by decide,
      show (127 : BitVec 32).toInt = 127 by decide] at hlow hhigh
    change a + (disp.setWidth 8).signExtend 64 = a + disp.signExtend 64
    congr 1
    apply BitVec.eq_of_toInt_eq
    rw [BitVec.toInt_signExtend_of_le (by omega), BitVec.toInt_signExtend_of_le (by omega),
      BitVec.toInt_setWidth, Int.bmod_def]
    rw [BitVec.toInt_eq_toNat_cond] at hlow hhigh ⊢
    split_ifs at hlow hhigh ⊢ <;> omega
  · rfl

theorem ne_zero_iff {n : ℕ} (v : BitVec n) : v ≠ 0 ↔ ∃ i < n, v.getLsbD i = true := by
  constructor
  · intro h
    by_contra hbits
    refine h (BitVec.eq_of_getLsbD_eq fun i hi => ?_)
    rw [BitVec.ofNat_eq_ofNat, BitVec.getLsbD_zero, Bool.eq_false_iff]
    exact fun hbit => hbits ⟨i, hi, hbit⟩
  · rintro ⟨i, -, hbit⟩ rfl
    simp at hbit

/-- A test of one bit. -/
theorem and_bit_ne_zero {n : ℕ} (v : BitVec n) {k : ℕ} (hk : k < n) :
    v &&& 1#n <<< k ≠ 0 ↔ v.getLsbD k = true := by
  rw [ne_zero_iff]
  constructor
  · rintro ⟨i, hi, hbit⟩
    rw [BitVec.getLsbD_and, getLsbD_bit _ _ hi, Bool.and_eq_true, decide_eq_true_eq] at hbit
    rw [← hbit.2]
    exact hbit.1
  · intro hbit
    refine ⟨k, hk, ?_⟩
    rw [BitVec.getLsbD_and, getLsbD_bit _ _ hk, hbit]
    simp

/-! ## Groups -/

theorem getLsbD_groupMask (d : Word) (hoist : List Word) {i : ℕ} (hi : i < 32) :
    (groupMask d hoist).getLsbD i =
      hoist.any fun w => decide (w >>> 5 = d) && decide (i = w.toNat % 32) := by
  unfold groupMask
  have hfold : ∀ mask : BitVec 32, (hoist.foldl (fun mask (w : Word) =>
      if w >>> 5 = d then mask ||| 1#32 <<< (w.toNat % 32) else mask) mask).getLsbD i =
      (mask.getLsbD i ||
        hoist.any fun w => decide (w >>> 5 = d) && decide (i = w.toNat % 32)) := by
    induction hoist with
    | nil => simp
    | cons w hoist ih =>
        intro mask
        rw [List.foldl_cons, ih, List.any_cons]
        by_cases hd : w >>> 5 = d
        · rw [if_pos hd, BitVec.getLsbD_or, getLsbD_bit _ _ hi, Bool.or_assoc]
          simp [hd]
        · rw [if_neg hd]
          simp [hd]
  rw [hfold]
  simp

theorem testGroup_groupMask (host : Memory) (r14 : Word) {d : Word} (hoist : List Word)
    (hd : d.toNat < 2 ^ 29) :
    testGroup host r14 (d, groupMask d hoist) =
      hoist.any fun w => decide (w >>> 5 = d) && bit host r14 w := by
  have hdisp : (int32 (d <<< 2)).signExtend 64 = d <<< 2 :=
    (signExtend_int32 (by bv_omega)).mpr (by bv_omega)
  have hbit : ∀ w : Word, w >>> 5 = d →
      (readLe host (r14 + d <<< 2) 4).testBit (w.toNat % 32) = bit host r14 w := by
    rintro w rfl
    exact testBit_readLe_four host r14 w
  unfold testGroup
  simp only [memOperand_address, hdisp]
  rw [Bool.eq_iff_iff, decide_eq_true_eq, ne_zero_iff, List.any_eq_true]
  simp only [BitVec.getLsbD_and, Bool.and_eq_true, decide_eq_true_eq]
  constructor
  · rintro ⟨i, hi, hread, hmask⟩
    rw [getLsbD_groupMask d hoist hi, List.any_eq_true] at hmask
    obtain ⟨w, hw, hmask⟩ := hmask
    simp only [Bool.and_eq_true, decide_eq_true_eq] at hmask
    refine ⟨w, hw, hmask.1, ?_⟩
    rw [BitVec.getLsbD_ofNat, Bool.and_eq_true] at hread
    rw [← hbit w hmask.1, ← hmask.2]
    exact hread.2
  · rintro ⟨w, hw, hword, hset⟩
    have hi : w.toNat % 32 < 32 := Nat.mod_lt _ (by omega)
    refine ⟨w.toNat % 32, hi, ?_, ?_⟩
    · rw [← hbit w hword] at hset
      rw [BitVec.getLsbD_ofNat, hset]
      simp [hi]
    · rw [getLsbD_groupMask d hoist hi, List.any_eq_true]
      exact ⟨w, hw, by simp [hword]⟩

theorem any_groups (host : Memory) (r14 : Word) (done hoist : List Word)
    (hsmall : ∀ w ∈ hoist, w.toNat < 2 ^ 34) :
    (groups done hoist).any (testGroup host r14) =
      hoist.any fun w => decide (w >>> 5 ∉ done) && bit host r14 w := by
  induction hoist generalizing done with
  | nil => rfl
  | cons w rest ih =>
      have hrest := fun x hx => hsmall x (List.mem_cons_of_mem _ hx)
      have hw := hsmall w List.mem_cons_self
      rw [groups]
      split_ifs with hdone
      · rw [ih done hrest]
        simp [hdone]
      · rw [List.any_cons, ih _ hrest, testGroup_groupMask _ _ _ (by bv_omega),
          Bool.eq_iff_iff]
        simp only [Bool.or_eq_true, List.any_eq_true, Bool.and_eq_true, decide_eq_true_eq,
          List.mem_cons, not_or]
        constructor
        · rintro (⟨x, hx, hxw, hbit⟩ | ⟨x, hx, hxw, hbit⟩)
          · exact ⟨x, hx, by rwa [hxw], hbit⟩
          · exact ⟨x, Or.inr hx, hxw.2, hbit⟩
        · rintro ⟨x, hx, hxw, hbit⟩
          by_cases hsame : x >>> 5 = w >>> 5
          · exact Or.inl ⟨x, hx, hsame, hbit⟩
          · refine Or.inr ⟨x, hx.resolve_left ?_, ⟨hsame, hxw⟩, hbit⟩
            rintro rfl
            exact hsame rfl

/-! ## All tests -/

/-- Each test reads what the marking sets, for a memory of `msize` bytes. -/
structure TestsRight (maps : Maps) (msize : Word) : Prop where
  bitmap : ∀ host w, w < msize >>> 3 →
    testBitmap host maps.staticMap w = bit host maps.staticMap w
  group : ∀ host hoist, (∀ w ∈ hoist, w < msize >>> 3) →
    (groups [] hoist).any (testGroup host maps.staticMap) =
      hoist.any (bit host maps.staticMap)
  qword : ∀ host rb, rb < msize → ∀ w ∈ [rb >>> 3, (rb + 7) >>> 3],
    testQword host maps.staticMap w = bit host maps.staticMap w
  page : ∀ host rb, rb < msize → testPage host maps.staticMap maps.pageOff rb =
    decide (host (maps.pageMap + rb >>> 12) ≠ 0)
  /-- the casts to `int32_t` -/
  exact : (∀ w, w < msize >>> 3 → (int32 (w >>> 3)).signExtend 64 = w >>> 3 ∧
      (int32 (w >>> 5 <<< 2)).signExtend 64 = w >>> 5 <<< 2) ∧
    (int32 maps.pageOff).signExtend 64 = maps.pageOff
  /-- the bytes read, from the start of the maps -/
  inside : (∀ w, w < msize >>> 3 → (w >>> 3).toNat < (mapBytes msize).toNat ∧
      (w >>> 5 <<< 2).toNat + 4 ≤ (mapBytes msize).toNat) ∧
    (∀ rb, rb < msize → (∀ w ∈ [rb >>> 3, (rb + 7) >>> 3],
      (w >>> 6 <<< 3).toNat + 8 ≤ (mapBytes msize).toNat) ∧
      (rb >>> 12).toNat < (pageBytes msize).toNat)

theorem mapBytes_toNat (msize : Word) :
    (mapBytes msize).toNat = (msize.toNat / 64 + 15) / 8 * 8 := by
  rw [mapBytes, toNat_and_not_seven]
  bv_omega

theorem jitInit_eq_some {alloc : ℕ → Word → Option Word} {msize maxBytes : Word} {n : ℕ}
    {maps : Maps} (h : jitInit alloc msize n maxBytes = some maps) :
    maps.pageMap = maps.staticMap + mapBytes msize ∧ maps.pageOff = mapBytes msize := by
  obtain ⟨blocks, -, h⟩ := Option.bind_eq_some_iff.mp h
  obtain ⟨staticMap, -, h⟩ := Option.bind_eq_some_iff.mp h
  obtain ⟨dynMap, -, h⟩ := Option.bind_eq_some_iff.mp h
  obtain ⟨-, -, h⟩ := Option.bind_eq_some_iff.mp h
  obtain rfl := Option.some.inj h
  exact ⟨rfl, rfl⟩

theorem testsRight_of_lt {maps : Maps} {msize : Word}
    (hpage : maps.pageMap = maps.staticMap + mapBytes msize)
    (hoff : maps.pageOff = mapBytes msize) (h : msize.toNat < 2 ^ 37 - 960) :
    TestsRight maps msize := by
  have hmap := mapBytes_toNat msize
  have hbyte : ∀ w, w < msize >>> 3 → (int32 (w >>> 3)).signExtend 64 = w >>> 3 :=
    fun w hw => (signExtend_int32 (by bv_omega)).mpr (by bv_omega)
  have hdword : ∀ w, w < msize >>> 3 →
      (int32 (w >>> 5 <<< 2)).signExtend 64 = w >>> 5 <<< 2 :=
    fun w hw => (signExtend_int32 (by bv_omega)).mpr (by bv_omega)
  have hpageOff : (int32 maps.pageOff).signExtend 64 = maps.pageOff := by
    rw [hoff]
    exact (signExtend_int32 (by omega)).mpr (by omega)
  refine ⟨?_, ?_, ?_, ?_, ⟨fun w hw => ⟨hbyte w hw, hdword w hw⟩, hpageOff⟩, ?_, ?_⟩
  · intro host w hw
    rw [testBitmap, memOperand_address, hbyte w hw, bit, Bool.eq_iff_iff, decide_eq_true_eq]
    exact and_bit_ne_zero _ (Nat.mod_lt _ (by omega))
  · intro host hoist hwords
    rw [any_groups host _ [] hoist fun w hw => by have := hwords w hw; bv_omega]
    simp
  · intro host rb hrb w hw
    have hbit : w.toNat % 64 < 64 := Nat.mod_lt _ (by omega)
    rw [testQword, ← testBit_readLe_eight host maps.staticMap w, BitVec.getLsbD_ofNat]
    simp [hbit]
  · intro host rb hrb
    rw [testPage, hpageOff, hpage, hoff, add_right_comm]
  · intro w hw
    constructor <;> bv_omega
  · intro rb hrb
    refine ⟨fun w hw => ?_, ?_⟩
    · simp only [List.mem_cons, List.not_mem_nil, or_false] at hw
      rcases hw with rfl | rfl <;> bv_omega
    · unfold pageBytes
      bv_omega

/-- The tests are right exactly where the offset of the page map fits a displacement,
which `jit_init` does not make sure of. -/
theorem testsRight_iff {alloc : ℕ → Word → Option Word} {msize maxBytes : Word} {n : ℕ}
    {maps : Maps} (h : jitInit alloc msize n maxBytes = some maps) :
    TestsRight maps msize ↔ msize.toNat < 2 ^ 37 - 960 := by
  obtain ⟨hpage, hoff⟩ := jitInit_eq_some h
  have hmap := mapBytes_toNat msize
  refine ⟨fun hright => ?_, testsRight_of_lt hpage hoff⟩
  have hexact := hright.exact.2
  rw [hoff, signExtend_int32 (by omega)] at hexact
  omega

/-- An allocator that always has memory. -/
def sampleAlloc : ℕ → Word → Option Word := fun k _ => some (BitVec.ofNat 64 (k + 1) <<< 40)

theorem testsRight_iff_oneGiB :
    ∃ maps, jitInit sampleAlloc 0x40000000 2 0x8000000 = some maps ∧
      TestsRight maps 0x40000000 := by
  obtain ⟨maps, h⟩ : ∃ maps, jitInit sampleAlloc 0x40000000 2 0x8000000 = some maps :=
    Option.isSome_iff_exists.mp (by decide)
  exact ⟨maps, h, (testsRight_iff h).mpr (by decide)⟩

/-- With 128 GiB the test of a page reads below the maps: it misses the byte that marks
the first page. -/
theorem not_testsRight_128GiB :
    ∃ maps, jitInit sampleAlloc 0x2000000000 1 0x200000000 = some maps ∧
      ¬ TestsRight maps 0x2000000000 := by
  obtain ⟨maps, h⟩ : ∃ maps, jitInit sampleAlloc 0x2000000000 1 0x200000000 = some maps :=
    Option.isSome_iff_exists.mp (by decide)
  obtain ⟨hpage, hoff⟩ := jitInit_eq_some h
  refine ⟨maps, h, fun hright => ?_⟩
  have hread := hright.page (fun a => if a = maps.pageMap then 1 else 0) 0 (by decide)
  have hmiss : maps.staticMap + (int32 maps.pageOff).signExtend 64 ≠
      maps.pageMap := by
    rw [hpage, hoff, show (int32 (mapBytes 0x2000000000)).signExtend 64 =
      0xffffffff80000008#64 by decide, show mapBytes 0x2000000000 = 0x80000008#64 by decide]
    bv_omega
  rw [testPage] at hread
  simp at hread
  exact hmiss hread

end StaticMap
end SubleqEmu
