import SubleqEmu.PageTableModel

/-!
# Bits of page table entries

What the masks of `paging.c` and the fields the processor reads make of the
entries it writes, and how writes to memory look table by table.
-/

namespace SubleqEmu
namespace PageTable

open RadixTree

/-! ## Masks and fields -/

theorem present_eq_getLsbD (entry : BitVec 64) : present entry = entry.getLsbD 0 := by
  have hand : entry &&& 0x1#64 =
      if entry.getLsbD 0 then BitVec.twoPow 64 0 else 0#64 :=
    BitVec.and_twoPow entry 0
  rw [present, hand]
  cases entry.getLsbD 0 <;> decide

theorem large_eq_getLsbD (entry : BitVec 64) : large entry = entry.getLsbD 7 := by
  have hand : entry &&& (1#64 <<< 7) =
      if entry.getLsbD 7 then BitVec.twoPow 64 7 else 0#64 :=
    BitVec.and_twoPow entry 7
  rw [large, hand]
  cases entry.getLsbD 7 <;> decide

theorem frameAddr_toNat (frame : Frame) :
    (frameAddr frame).toNat = frame.toNat * 4096 := by
  have hlt := frame.isLt
  rw [frameAddr, BitVec.toNat_shiftLeft, BitVec.toNat_setWidth, Nat.shiftLeft_eq,
    Nat.mod_eq_of_lt (a := frame.toNat) (by omega), Nat.mod_eq_of_lt (by omega)]

theorem getLsbD_frameAddr (frame : Frame) (k : ℕ) :
    (frameAddr frame).getLsbD k =
      (decide (12 ≤ k) && frame.getLsbD (k - 12)) := by
  rw [frameAddr, BitVec.getLsbD_shiftLeft, BitVec.getLsbD_setWidth]
  by_cases hk : k < 64
  · by_cases hlow : k < 12
    · simp [hlow]
    · simp [hk, hlow, show 12 ≤ k by omega, show k - 12 < 64 by omega]
  · have hout : frame.getLsbD (k - 12) = false :=
      BitVec.getLsbD_of_ge _ _ (by omega)
    simp [hk, hout]

theorem getLsbD_largeAddr (frame : LargeFrame) (k : ℕ) :
    (largeAddr frame).getLsbD k =
      (decide (21 ≤ k) && frame.getLsbD (k - 21)) := by
  rw [largeAddr, BitVec.getLsbD_shiftLeft, BitVec.getLsbD_setWidth]
  by_cases hk : k < 64
  · by_cases hlow : k < 21
    · simp [hlow]
    · simp [hk, hlow, show 21 ≤ k by omega, show k - 21 < 64 by omega]
  · have hout : frame.getLsbD (k - 21) = false :=
      BitVec.getLsbD_of_ge _ _ (by omega)
    simp [hk, hout]

theorem getLsbD_tableMask (k : ℕ) :
    tableMask.getLsbD k = (decide (12 ≤ k) && decide (k < 64)) := by
  have hmask : tableMask = BitVec.allOnes 64 <<< 12 := by decide
  rw [hmask, BitVec.getLsbD_shiftLeft, BitVec.getLsbD_allOnes]
  by_cases hk : k < 64
  · by_cases hlow : k < 12
    · simp [hk, hlow, show ¬ 12 ≤ k by omega]
    · simp [hk, hlow, show 12 ≤ k by omega, show k - 12 < 64 by omega]
  · simp [hk]

theorem getLsbD_largeMask (k : ℕ) :
    largeMask.getLsbD k = (decide (21 ≤ k) && decide (k < 64)) := by
  have hmask : largeMask = BitVec.allOnes 64 <<< 21 := by decide
  rw [hmask, BitVec.getLsbD_shiftLeft, BitVec.getLsbD_allOnes]
  by_cases hk : k < 64
  · by_cases hlow : k < 21
    · simp [hk, hlow, show ¬ 21 ≤ k by omega]
    · simp [hk, hlow, show 21 ≤ k by omega, show k - 21 < 64 by omega]
  · simp [hk]

theorem getLsbD_three (k : ℕ) : (0x03#64).getLsbD k = decide (k < 2) := by
  rcases k with _ | _ | k
  · rfl
  · rfl
  · have hout : Nat.testBit 3 (k + 2) = false := by
      refine Nat.testBit_lt_two_pow ?_
      calc 3 < 2 ^ 2 := by norm_num
        _ ≤ 2 ^ (k + 2) := Nat.pow_le_pow_right (by norm_num) (by omega)
    rw [BitVec.getLsbD_ofNat, hout]
    simp

/-- The entry for a table or a 4 KiB page. -/
def tableEntry (frame : Frame) : BitVec 64 := frameAddr frame ||| 0x03#64

/-- The entry for a 2 MiB page. -/
def largeEntry (frame : LargeFrame) : BitVec 64 :=
  largeAddr frame ||| 0x03#64 ||| (1#64 <<< 7)

theorem largeAddr_and_largeMask (frame : LargeFrame) :
    largeAddr frame &&& largeMask = largeAddr frame := by
  refine BitVec.eq_of_getLsbD_eq ?_
  intro k hk
  rw [BitVec.getLsbD_and, getLsbD_largeAddr, getLsbD_largeMask]
  by_cases hlow : 21 ≤ k <;> simp [hlow, hk]

theorem tableEntry_and_tableMask (frame : Frame) :
    tableEntry frame &&& tableMask = frameAddr frame := by
  refine BitVec.eq_of_getLsbD_eq ?_
  intro k hk
  rw [tableEntry, BitVec.getLsbD_and, BitVec.getLsbD_or, getLsbD_frameAddr,
    getLsbD_tableMask, getLsbD_three]
  by_cases hlow : 12 ≤ k
  · simp [hlow, hk, show ¬ k < 2 by omega]
  · simp [hlow]

theorem getLsbD_tableEntry (frame : Frame) {k : ℕ} (hk : k < 12) :
    (tableEntry frame).getLsbD k = decide (k < 2) := by
  rw [tableEntry, BitVec.getLsbD_or, getLsbD_frameAddr, getLsbD_three]
  simp [show ¬ 12 ≤ k by omega]

@[simp] theorem extractLsb'_tableEntry (frame : Frame) :
    (tableEntry frame).extractLsb' 12 40 = frame := by
  refine BitVec.eq_of_getLsbD_eq ?_
  intro k hk
  rw [BitVec.getLsbD_extractLsb', tableEntry, BitVec.getLsbD_or,
    getLsbD_frameAddr, getLsbD_three]
  simp [hk, show ¬ 12 + k < 2 by omega]

@[simp] theorem present_tableEntry (frame : Frame) :
    (tableEntry frame).getLsbD 0 = true := getLsbD_tableEntry frame (by norm_num)

@[simp] theorem large_tableEntry (frame : Frame) :
    (tableEntry frame).getLsbD 7 = false := getLsbD_tableEntry frame (by norm_num)

theorem extractLsb'_frameAddr (frame : Frame) :
    (frameAddr frame).extractLsb' 12 40 = frame := by
  refine BitVec.eq_of_getLsbD_eq ?_
  intro k hk
  rw [BitVec.getLsbD_extractLsb', getLsbD_frameAddr]
  simp [hk]

/-- Whatever the address, a page table entry holds its page number. -/
theorem decode_pageEntry (physAddr : BitVec 64) :
    decode 0 ((physAddr &&& tableMask) ||| 0x03#64) =
      .leaf (.page4k (physAddr.extractLsb' 12 40)) := by
  have hpresent : ((physAddr &&& tableMask) ||| 0x03#64).getLsbD 0 = true := by
    rw [BitVec.getLsbD_or, getLsbD_three]
    simp
  have hframe : ((physAddr &&& tableMask) ||| 0x03#64).extractLsb' 12 40 =
      physAddr.extractLsb' 12 40 := by
    refine BitVec.eq_of_getLsbD_eq ?_
    intro k hk
    rw [BitVec.getLsbD_extractLsb', BitVec.getLsbD_extractLsb', BitVec.getLsbD_or,
      BitVec.getLsbD_and, getLsbD_tableMask, getLsbD_three]
    simp [hk, show 12 + k < 64 by omega, show ¬ 12 + k < 2 by omega]
  rw [decode, hpresent, hframe]
  rfl

theorem getLsbD_bit7 (k : ℕ) : (1#64 <<< 7).getLsbD k = decide (k = 7) := by
  rw [BitVec.getLsbD_shiftLeft, BitVec.getLsbD_one]
  by_cases heq : k = 7
  · simp [heq]
  · by_cases hlow : k < 7
    · simp [heq, hlow]
    · simp [heq, show k - 7 ≠ 0 by omega]

theorem getLsbD_largeEntry (frame : LargeFrame) (k : ℕ) :
    (largeEntry frame).getLsbD k =
      (decide (21 ≤ k) && frame.getLsbD (k - 21) || decide (k < 2) ||
        decide (k = 7)) := by
  have hbit := getLsbD_bit7 k
  rw [largeEntry, BitVec.getLsbD_or, BitVec.getLsbD_or, getLsbD_largeAddr,
    getLsbD_three]
  exact congrArg _ hbit

@[simp] theorem present_largeEntry (frame : LargeFrame) :
    (largeEntry frame).getLsbD 0 = true := by
  simp [getLsbD_largeEntry]

@[simp] theorem large_largeEntry (frame : LargeFrame) :
    (largeEntry frame).getLsbD 7 = true := by
  simp [getLsbD_largeEntry]

@[simp] theorem extractLsb'_largeEntry (frame : LargeFrame) :
    (largeEntry frame).extractLsb' 21 31 = frame := by
  refine BitVec.eq_of_getLsbD_eq ?_
  intro k hk
  rw [BitVec.getLsbD_extractLsb', getLsbD_largeEntry]
  simp [hk, show ¬ 21 + k < 2 by omega, show ¬ 21 + k = 7 by omega]

/-! ## Entries as children -/

/-- The table an entry above the page tables leads to. -/
def child (entry : BitVec 64) : Option Frame :=
  if entry.getLsbD 0 = true ∧ entry.getLsbD 7 = false then
    some (entry.extractLsb' 12 40)
  else none

@[simp] theorem child_zero : child 0#64 = none := rfl

theorem child_eq_some_iff {entry : BitVec 64} {frame : Frame} :
    child entry = some frame ↔ entry.getLsbD 0 = true ∧ entry.getLsbD 7 = false ∧
      entry.extractLsb' 12 40 = frame := by
  unfold child
  split_ifs with hentry
  · simp only [hentry, true_and, Option.some.injEq]
  · simp only [false_iff]
    tauto

@[simp] theorem child_tableEntry (frame : Frame) :
    child (tableEntry frame) = some frame :=
  child_eq_some_iff.mpr ⟨present_tableEntry frame, large_tableEntry frame,
    extractLsb'_tableEntry frame⟩

@[simp] theorem child_largeEntry (frame : LargeFrame) :
    child (largeEntry frame) = none := by
  rw [child, if_neg]
  rintro ⟨-, hlarge⟩
  rw [large_largeEntry] at hlarge
  contradiction

theorem decode_table (level : ℕ) (entry : BitVec 64) (frame : Frame)
    (h : decode level entry = .table frame) : 0 < level ∧ child entry = some frame := by
  unfold decode at h
  split_ifs at h with hpresent hlevel hlarge
  refine ⟨by omega, child_eq_some_iff.mpr ⟨?_, hlarge, by simpa using h⟩⟩
  exact Bool.eq_true_of_not_eq_false hpresent

theorem decode_of_child (level : ℕ) (entry : BitVec 64) (frame : Frame)
    (h : child entry = some frame) : decode (level + 1) entry = .table frame := by
  obtain ⟨hpresent, hlarge, hframe⟩ := child_eq_some_iff.mp h
  rw [decode, if_neg (by rw [hpresent]; decide), if_neg (by omega),
    if_pos hlarge, hframe]

/-! ## Indices -/

theorem idx_toNat (virt : BitVec 64) (shift : ℕ) :
    ((virt >>> shift) &&& 0x1ff#64).toNat = (virt.extractLsb' shift 9).toNat := by
  have hmask : (0x1ff#64).toNat = 2 ^ 9 - 1 := by decide
  rw [BitVec.toNat_and, hmask, Nat.and_two_pow_sub_one_eq_mod,
    BitVec.toNat_ushiftRight, BitVec.extractLsb'_toNat]

theorem entryAt_frameAddr (frame : Frame) (virt : BitVec 64) (shift : ℕ) :
    entryAt (frameAddr frame) ((virt >>> shift) &&& 0x1ff#64) =
      frame.toNat * 512 + (virt.extractLsb' shift 9).toNat := by
  rw [entryAt, idx_toNat, frameAddr_toNat]
  omega

theorem entry_inj {t t' : Frame} {i i' : BitVec 9} :
    t'.toNat * 512 + i'.toNat = t.toNat * 512 + i.toNat ↔ t' = t ∧ i' = i := by
  have hi := i.isLt
  have hi' := i'.isLt
  constructor
  · intro h
    exact ⟨BitVec.eq_of_toNat_eq (by omega), BitVec.eq_of_toNat_eq (by omega)⟩
  · rintro ⟨rfl, rfl⟩
    rfl

theorem readTable_update (mem : Memory) (t : Frame) (i : BitVec 9)
    (entry : BitVec 64) :
    readTable (Function.update mem (t.toNat * 512 + i.toNat) entry) =
      write (readTable mem) t i entry := by
  funext t' i'
  simp only [readTable, write, Function.update_apply, entry_inj]

/-- The entries which lie in a page are those of the table in it. -/
theorem entry_mem_page_iff {page t : Frame} {i : BitVec 9} :
    ((frameAddr page).toNat / 8 ≤ t.toNat * 512 + i.toNat ∧
      t.toNat * 512 + i.toNat < (frameAddr page).toNat / 8 + 512) ↔ t = page := by
  have hi := i.isLt
  rw [frameAddr_toNat, ← BitVec.toNat_inj]
  omega

theorem readTable_zeroPage (mem : Memory) (page t : Frame) (i : BitVec 9) :
    readTable (zeroPage mem page) t i =
      if t = page then 0#64 else readTable mem t i := by
  simp only [readTable, zeroPage, entry_mem_page_iff]
  rfl

/-! ## Paths -/

@[simp] theorem path_length (virt : BitVec 64) : (path virt).length = 4 := rfl

theorem extractLsb'_eq_iff {v w : BitVec 64} {start len : ℕ} :
    v.extractLsb' start len = w.extractLsb' start len ↔
      ∀ k < len, v.getLsbD (start + k) = w.getLsbD (start + k) := by
  constructor
  · intro h k hk
    have := congrArg (fun b => b.getLsbD k) h
    simpa [BitVec.getLsbD_extractLsb', hk] using this
  · intro h
    refine BitVec.eq_of_getLsbD_eq ?_
    intro k hk
    simpa [BitVec.getLsbD_extractLsb', hk] using h k hk

theorem extractLsb'_split {v w : BitVec 64} {start a b : ℕ} :
    v.extractLsb' start (a + b) = w.extractLsb' start (a + b) ↔
      v.extractLsb' (start + a) b = w.extractLsb' (start + a) b ∧
        v.extractLsb' start a = w.extractLsb' start a := by
  simp only [extractLsb'_eq_iff]
  constructor
  · intro h
    refine ⟨fun k hk => ?_, fun k hk => h k (by omega)⟩
    simpa [Nat.add_assoc] using h (a + k) (by omega)
  · rintro ⟨hhigh, hlow⟩ k hk
    by_cases hlt : k < a
    · exact hlow k hlt
    · have := hhigh (k - a) (by omega)
      rwa [show start + a + (k - a) = start + k by omega] at this

theorem path_eq_iff {v virt : BitVec 64} :
    path v = path virt ↔ v.extractLsb' 12 36 = virt.extractLsb' 12 36 := by
  rw [show 36 = 9 + 27 from rfl, extractLsb'_split, show 27 = 9 + 18 from rfl,
    extractLsb'_split, show 18 = 9 + 9 from rfl, extractLsb'_split]
  simp only [path, List.cons.injEq, and_true]
  tauto

theorem prefix_path_iff {v virt : BitVec 64} :
    [virt.extractLsb' 39 9, virt.extractLsb' 30 9] ++ [virt.extractLsb' 21 9] <+:
        path v ↔
      v.extractLsb' 21 27 = virt.extractLsb' 21 27 := by
  rw [show 27 = 9 + 18 from rfl, extractLsb'_split, show 18 = 9 + 9 from rfl,
    extractLsb'_split]
  simp only [path, List.cons_append, List.nil_append, List.cons_prefix_cons,
    List.nil_prefix, and_true]
  constructor
  · rintro ⟨h1, h2, h3⟩
    exact ⟨⟨h1.symm, h2.symm⟩, h3.symm⟩
  · rintro ⟨⟨h1, h2⟩, h3⟩
    exact ⟨h1.symm, h2.symm, h3.symm⟩

end PageTable
end SubleqEmu
