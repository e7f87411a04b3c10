import SubleqEmu.CopyGuardModel
import SubleqEmu.CopyLoopShortcut

/-!
# The marks of a copy loop

Whether all the words that `match_copy` compared are static in the block depends on the
values left over in two of the patched fields: `translate` takes what they point to for
words that the block writes.
-/

namespace SubleqEmu
namespace CopyGuard

open ByteMemory Emitter Subleq CopyLoop
open Translator (Cache T Source translateInsn)

variable {v : View} {desc : Desc} {start a b p : Word} {src : Source} {written : Word → Bool}
  {J J' : Cache} {M M' : Marks} {code : List Machine.Insn}

/-! ## Words that a static B touches -/

theorem touchedWords_eq (b : Word) :
    touchedWords b =
      let x := b &&& ~~~7#64
      if x < b + 8 then
        if x + 8 < b + 8 then if x + 8 + 8 < b + 8 then none else some [x, x + 8]
        else some [x]
      else some [] := by
  simp only [touchedWords, wordsBelow]
  split_ifs <;> rfl

theorem Touches.bounds (h : Touches b a) :
    a.toNat % 8 = 0 ∧ a.toNat < b.toNat + 8 ∧ b.toNat < a.toNat + 8 := by
  obtain ⟨words, hwords, hmem⟩ := h
  have hlow := toNat_and_not_seven b
  have hlt := b.isLt
  rw [touchedWords_eq] at hwords
  dsimp only at hwords
  split_ifs at hwords with hfirst hsecond hthird
  · obtain rfl := Option.some.inj hwords
    rcases List.mem_cons.mp hmem with rfl | hmem
    · omega
    · obtain rfl := List.mem_singleton.mp hmem
      bv_omega
  · obtain rfl := Option.some.inj hwords
    obtain rfl := List.mem_singleton.mp hmem
    omega
  · obtain rfl := Option.some.inj hwords
    exact absurd hmem List.not_mem_nil

theorem touchedWords_eq_none_iff :
    touchedWords b = none ↔ 2 ^ 64 - 16 < b.toNat ∧ b.toNat < 2 ^ 64 - 8 := by
  have hlow := toNat_and_not_seven b
  have hlt := b.isLt
  rw [touchedWords_eq]
  dsimp only
  split_ifs with hfirst hsecond hthird
  · exact iff_of_true rfl (by bv_omega)
  · exact iff_of_false id (by bv_omega)
  · exact iff_of_false id (by bv_omega)
  · exact iff_of_false id (by bv_omega)

theorem wordsBelow_add {last x : Word} {k : ℕ} {words : List Word}
    (h : wordsBelow last k x = some words) (j : ℕ) : wordsBelow last (k + j) x = some words := by
  induction k generalizing x words with
  | zero => cases h
  | succ k ih =>
      rw [Nat.add_right_comm, wordsBelow] at *
      split_ifs at h ⊢ with hlt
      · obtain ⟨rest, hrest, rfl⟩ := Option.map_eq_some_iff.mp h
        rw [ih hrest, Option.map_some]
      · exact h

/-- The loop ends in its third test, or it goes over all words of the address space again
and again. -/
theorem wordsBelow_eq {k : ℕ} (hk : 3 ≤ k) :
    wordsBelow (b + 8) k (b &&& ~~~7#64) = touchedWords b := by
  cases hwords : touchedWords b with
  | some words =>
      obtain ⟨j, rfl⟩ := Nat.exists_eq_add_of_le hk
      exact wordsBelow_add hwords j
  | none =>
      obtain ⟨hlow, hhigh⟩ := touchedWords_eq_none_iff.mp hwords
      have hnever : ∀ k (x : Word), x.toNat % 8 = 0 → wordsBelow (b + 8) k x = none := by
        intro k
        induction k with
        | zero => exact fun _ _ => rfl
        | succ k ih =>
            intro x hx
            rw [wordsBelow, if_pos (by bv_omega), ih (x + 8) (by bv_omega), Option.map_none]
      have haligned := toNat_and_not_seven b
      exact hnever k _ (by omega)

/-- A field of the loop, by its instruction and its place there. -/
structure IsField (start a : Word) (k f : ℕ) : Prop where
  insn : k < 19
  place : f < 3
  toNat : a.toNat = start.toNat + 24 * k + 8 * f

theorem isField_compared (hstart : start.toNat + 456 ≤ 2 ^ 47) (ha : a ∈ compared start) :
    ∃ k f, IsField start a k f := by
  obtain ⟨k, fields, hrow, h⟩ := mem_compared ha
  have hk : k < 19 := (List.getElem?_eq_some_iff.mp hrow).1
  have hinsn := insnAt_toNat hstart hk
  obtain ⟨-, rfl⟩ | ⟨-, rfl⟩ | rfl := h
  · exact ⟨k, 0, hk, by decide, hinsn⟩
  · exact ⟨k, 1, hk, by decide, by bv_omega⟩
  · exact ⟨k, 2, hk, by decide, by bv_omega⟩

theorem IsField.index_eq_iff {k f : ℕ} (h : IsField start a k f)
    (hstart : start.toNat + 456 ≤ 2 ^ 47) (haligned : start.toNat % 8 = 0)
    (hp : p.toNat % 8 = 0) :
    (inBlock start p = true ∧ (p - start) >>> 3 = (a - start) >>> 3) ↔ p = a := by
  obtain ⟨hk, hf, htoNat⟩ := h
  have hend : (start + 24 * BitVec.ofNat 64 jitMaxBlock).toNat = start.toNat + 1536 := by
    unfold jitMaxBlock
    bv_omega
  have hin : inBlock start p = true ↔
      start.toNat ≤ p.toNat ∧ p.toNat < start.toNat + 1536 := by
    unfold inBlock
    rw [Bool.and_eq_true, decide_eq_true_eq, decide_eq_true_eq, ge_iff_le, BitVec.le_def,
      BitVec.lt_def, hend]
  rw [hin]
  constructor
  · rintro ⟨⟨hle, hlt⟩, hindex⟩
    have h := congrArg BitVec.toNat hindex
    rw [BitVec.toNat_ushiftRight, BitVec.toNat_ushiftRight, Nat.shiftRight_eq_div_pow,
      Nat.shiftRight_eq_div_pow, BitVec.toNat_sub_of_le (BitVec.le_def.mpr hle),
      BitVec.toNat_sub_of_le (BitVec.le_def.mpr (by omega))] at h
    apply BitVec.eq_of_toNat_eq
    omega
  · rintro rfl
    exact ⟨⟨by omega, by omega⟩, rfl⟩

/-! ## The pass over the instructions -/

/-- Whether one of the instructions from `i` on writes the field with this index. -/
def WrittenFrom (v : View) (start : Word) (i : ℕ) (w : Word) : Prop :=
  ∃ k, i ≤ k ∧ k < 19 ∧ v.dynMap ((insnAt start k + 8) >>> 3) = false ∧
    ∃ x, Touches (read v.mem (insnAt start k + 8)) x ∧
      inBlock start x = true ∧ (x - start) >>> 3 = w

theorem markWritten_eq_true {written' : Word → Bool} {w : Word}
    (h : markWritten start b written = some written') :
    written' w = true ↔ written w = true ∨
      ∃ x, Touches b x ∧ inBlock start x = true ∧ (x - start) >>> 3 = w := by
  obtain ⟨words, hwords, rfl⟩ := Option.map_eq_some_iff.mp h
  simp [Touches, hwords]

theorem writtenFrom_iff {i : ℕ} {w : Word} (hi : i < 19) :
    WrittenFrom v start i w ↔
      (v.dynMap ((insnAt start i + 8) >>> 3) = false ∧
        ∃ x, Touches (read v.mem (insnAt start i + 8)) x ∧
          inBlock start x = true ∧ (x - start) >>> 3 = w) ∨ WrittenFrom v start (i + 1) w := by
  constructor
  · rintro ⟨k, hik, hk, h⟩
    obtain rfl | hlt := Nat.eq_or_lt_of_le hik
    · exact Or.inl h
    · exact Or.inr ⟨k, hlt, hk, h⟩
  · rintro (h | ⟨k, hik, hk, h⟩)
    · exact ⟨i, Nat.le_refl i, hi, h⟩
    · exact ⟨k, Nat.le_of_succ_le hik, hk, h⟩

theorem extent_succ {copy : Bool} {limit i : ℕ} {e : ℕ × (Word → Bool)}
    (h : extent v copy start (limit + 1) i written = some e) :
    e = (i, written) ∧ (insnAt start i + 24 ≤ v.memSize → insnAt start i ≠ start) ∨
      insnAt start i + 24 ≤ v.memSize ∧ ∃ written',
        (if v.dynMap ((insnAt start i + 8) >>> 3) then some written
          else markWritten start (read v.mem (insnAt start i + 8)) written) = some written' ∧
        (e = (i + 1, written') ∨ extent v copy start limit (i + 1) written' = some e) := by
  rw [extent] at h
  dsimp only at h
  by_cases hstop : ¬ insnAt start i + 24 ≤ v.memSize ∨
      (insnAt start i ≠ start ∧ !copy ∧ v.found (insnAt start i))
  · rw [if_pos hstop] at h
    exact Or.inl ⟨(Option.some.inj h).symm, fun hin => (hstop.resolve_left fun h => h hin).1⟩
  · rw [if_neg hstop] at h
    obtain ⟨written', hwritten, h⟩ := Option.bind_eq_some_iff.mp h
    refine Or.inr ⟨not_not.mp (not_or.mp hstop).1, written', hwritten, ?_⟩
    split_ifs at h
    · exact Or.inl (Option.some.inj h).symm
    · exact Or.inr h

/-- The pass goes over all 19 instructions of a copy loop. -/
theorem extent_loop (h : Loop v.size v.dynMap v.mem desc) {limit i n : ℕ}
    {written' : Word → Bool} (hi : i + limit = 19)
    (hextent : extent v true desc.start limit i written = some (n, written')) :
    n = 19 ∧ ∀ w, written' w = true ↔ written w = true ∨ WrittenFrom v desc.start i w := by
  have hsize := v.size.le
  have hle := h.start_le
  induction limit generalizing i written with
  | zero =>
      cases hextent
      refine ⟨hi, fun w => ⟨Or.inl, ?_⟩⟩
      rintro (hw | ⟨k, hik, hk, -⟩)
      · exact hw
      · omega
  | succ limit ih =>
      have hin : insnAt desc.start i + 24 ≤ v.memSize := by
        have hinsn : (insnAt desc.start i).toNat = desc.start.toNat + 24 * i :=
          insnAt_toNat (by omega) (by omega)
        unfold View.memSize
        bv_omega
      rw [extent] at hextent
      dsimp only at hextent
      rw [if_neg (by simpa using hin)] at hextent
      obtain ⟨written₁, hwritten₁, hnext⟩ := Option.bind_eq_some_iff.mp hextent
      have hstep : ∀ w, written₁ w = true ∨ WrittenFrom v desc.start (i + 1) w ↔
          written w = true ∨ WrittenFrom v desc.start i w := by
        intro w
        rw [writtenFrom_iff (show i < 19 by omega), ← or_assoc]
        apply or_congr_left
        split_ifs at hwritten₁ with hdyn
        · obtain rfl := Option.some.inj hwritten₁
          rw [hdyn]
          simp only [reduceCtorEq, false_and, or_false]
        · rw [markWritten_eq_true hwritten₁, Bool.eq_false_of_not_eq_true hdyn]
          simp only [true_and]
      have hrest : extent v true desc.start limit (i + 1) written₁ = some (n, written') := by
        split_ifs at hnext with hbreak
        · obtain rfl : i = 18 := by
            by_contra hne
            have hfield := h.next i (by omega)
            rw [nextOf, if_neg hne] at hfield
            exact hbreak.2.2 hfield
          obtain rfl : limit = 0 := by omega
          exact hnext
        · exact hnext
      obtain ⟨hn, hw⟩ := ih (by omega) hrest
      exact ⟨hn, fun w => (hw w).trans (hstep w)⟩

/-- What the block writes, for the fields that `match_copy` compared. -/
theorem writtenFrom_compared (h : Loop v.size v.dynMap v.mem desc)
    (haligned : desc.start.toNat % 8 = 0) (ha : a ∈ compared desc.start) :
    WrittenFrom v desc.start 0 ((a - desc.start) >>> 3) ↔
      ∃ k < 19, v.dynMap ((insnAt desc.start k + 8) >>> 3) = false ∧
        Touches (read v.mem (insnAt desc.start k + 8)) a := by
  have hsize := v.size.le
  have hle := h.start_le
  obtain ⟨j, f, hfield⟩ := isField_compared (by omega) ha
  have hindex : ∀ b, (∃ x, Touches b x ∧ inBlock desc.start x = true ∧
      (x - desc.start) >>> 3 = (a - desc.start) >>> 3) ↔ Touches b a := by
    intro b
    constructor
    · rintro ⟨x, hx, hin⟩
      have hxa := (hfield.index_eq_iff (by omega) haligned hx.bounds.1).mp hin
      rwa [← hxa]
    · intro hmem
      exact ⟨a, hmem, (hfield.index_eq_iff (by omega) haligned hmem.bounds.1).mpr rfl⟩
  constructor
  · rintro ⟨k, -, hk, hdyn, htouched⟩
    exact ⟨k, hk, hdyn, (hindex _).mp htouched⟩
  · rintro ⟨k, hk, hdyn, hmem⟩
    exact ⟨k, Nat.zero_le k, hk, hdyn, (hindex _).mpr hmem⟩

/-! ## The fields with symbols -/

/-- Where a static B of the loop points, but for those of 14 and 15. -/
theorem fieldB_cases (h : Loop v.size v.dynMap v.mem desc) {k : ℕ} (hk : k < 19)
    (h14 : k ≠ 14) (h15 : k ≠ 15) :
    read v.mem (insnAt desc.start k + 8) ∈
        [desc.t1, desc.t2, desc.s, desc.d, desc.c, desc.m] ∨
      ∃ x ∈ [Symbol.f1, .f2, .f3, .f4], read v.mem (insnAt desc.start k + 8) = desc.addr x := by
  have hrows : ∀ k < 19, ∀ row ∈ copyTmpl[k]?, (row.2 = .any → k = 14 ∨ k = 15) ∧
      (row.2 = .sd → k = 16 ∨ k = 17) := by decide
  obtain ⟨⟨x, y⟩, hrow⟩ : ∃ row, copyTmpl[k]? = some row :=
    ⟨_, List.getElem?_eq_getElem hk⟩
  obtain ⟨hany, hsd⟩ := hrows k hk _ hrow
  have hfield := h.fieldB k x y hrow
  have hvar : ∀ x, desc.addr x ∈ [desc.t1, desc.t2, desc.s, desc.d, desc.c, desc.m] →
      read v.mem (insnAt desc.start k + 8) = desc.addr x →
      read v.mem (insnAt desc.start k + 8) ∈
        [desc.t1, desc.t2, desc.s, desc.d, desc.c, desc.m] :=
    fun x hmem heq => heq ▸ hmem
  cases y with
  | any => exact absurd (hany rfl) (by omega)
  | sd =>
      left
      rcases hsd rfl with rfl | rfl <;> rcases h.fieldsSd with ⟨h16, h17⟩ | ⟨h16, h17⟩
      · exact hvar .s (by simp [Desc.addr]) h16
      · exact hvar .d (by simp [Desc.addr]) h16
      · exact hvar .d (by simp [Desc.addr]) h17
      · exact hvar .s (by simp [Desc.addr]) h17
  | f1 => exact Or.inr ⟨.f1, by simp, hfield (by decide) (by decide)⟩
  | f2 => exact Or.inr ⟨.f2, by simp, hfield (by decide) (by decide)⟩
  | f3 => exact Or.inr ⟨.f3, by simp, hfield (by decide) (by decide)⟩
  | f4 => exact Or.inr ⟨.f4, by simp, hfield (by decide) (by decide)⟩
  | t1 => exact Or.inl (hvar .t1 (by simp [Desc.addr]) (hfield (by decide) (by decide)))
  | t2 => exact Or.inl (hvar .t2 (by simp [Desc.addr]) (hfield (by decide) (by decide)))
  | s => exact Or.inl (hvar .s (by simp [Desc.addr]) (hfield (by decide) (by decide)))
  | d => exact Or.inl (hvar .d (by simp [Desc.addr]) (hfield (by decide) (by decide)))
  | c => exact Or.inl (hvar .c (by simp [Desc.addr]) (hfield (by decide) (by decide)))
  | m => exact Or.inl (hvar .m (by simp [Desc.addr]) (hfield (by decide) (by decide)))

/-- The instructions of two equal fields, and their places there. -/
theorem field_inj {j k c d : ℕ} (hstart : start.toNat + 456 ≤ 2 ^ 47) (hj : j < 19)
    (hk : k < 19) (hc : c < 24) (hd : d < 24)
    (h : insnAt start j + BitVec.ofNat 64 c = insnAt start k + BitVec.ofNat 64 d) :
    j = k ∧ c = d := by
  have htoNat : ∀ i < 19, ∀ e < 24,
      (insnAt start i + BitVec.ofNat 64 e).toNat = start.toNat + 24 * i + e := by
    intro i hi e he
    rw [BitVec.toNat_add, insnAt_toNat hstart hi, BitVec.toNat_ofNat]
    omega
  have heq := congrArg BitVec.toNat h
  rw [htoNat j hj c hc, htoNat k hk d hd] at heq
  omega

theorem compared_offset (h : a ∈ compared start) :
    ∃ k fields c, copyTmpl[k]? = some fields ∧ a = insnAt start k + BitVec.ofNat 64 c ∧
      (c = 0 ∧ fields.1 ≠ .any ∨ c = 8 ∧ fields.2 ≠ .any ∨ c = 16) := by
  obtain ⟨k, fields, hrow, ⟨hany, rfl⟩ | ⟨hany, rfl⟩ | rfl⟩ := mem_compared h
  · exact ⟨k, fields, 0, hrow, (BitVec.add_zero _).symm, Or.inl ⟨rfl, hany⟩⟩
  · exact ⟨k, fields, 8, hrow, rfl, Or.inr (Or.inl ⟨rfl, hany⟩)⟩
  · exact ⟨k, fields, 16, hrow, rfl, Or.inr (Or.inr rfl)⟩

/-- A field that was compared has its symbol in the template. -/
theorem compared_symbol (hstart : start.toNat + 456 ≤ 2 ^ 47) {j c : ℕ} {row : Symbol × Symbol}
    (hrow : copyTmpl[j]? = some row) (hc : c < 24)
    (hmem : insnAt start j + BitVec.ofNat 64 c ∈ compared start) :
    c = 0 ∧ row.1 ≠ .any ∨ c = 8 ∧ row.2 ≠ .any ∨ c = 16 := by
  obtain ⟨k, fields, d, hfields, heq, hd⟩ := compared_offset hmem
  have hj : j < 19 := (List.getElem?_eq_some_iff.mp hrow).1
  have hk : k < 19 := (List.getElem?_eq_some_iff.mp hfields).1
  obtain ⟨rfl, rfl⟩ := field_inj hstart hj hk hc (by omega) heq
  rw [hrow] at hfields
  obtain rfl := Option.some.inj hfields
  exact hd

theorem compared_c {k : ℕ} (hk : k < 19) : insnAt start k + 16 ∈ compared start := by
  unfold compared
  obtain ⟨row, hrow⟩ : ∃ row, copyTmpl[k]? = some row := ⟨_, List.getElem?_eq_getElem hk⟩
  exact List.mem_flatMap.mpr ⟨(row, k), List.mem_zipIdx_iff_getElem?.mpr hrow, by simp⟩

/-- The patched fields, as fields of the loop. -/
theorem patched_cases {x : Symbol} (hx : x ∈ [Symbol.f1, .f2, .f3, .f4]) :
    ∃ k c row, (Match.start start).sym x = insnAt start k + BitVec.ofNat 64 c ∧
      copyTmpl[k]? = some row ∧ (c = 0 ∧ row.1 = .any ∨ c = 8 ∧ row.2 = .any) := by
  have h5 : (5 * 24 : Word) = 24 * BitVec.ofNat 64 5 := by decide
  have h14 : (14 * 24 : Word) = 24 * BitVec.ofNat 64 14 := by decide
  have h15 : (15 * 24 : Word) = 24 * BitVec.ofNat 64 15 := by decide
  simp only [List.mem_cons, List.not_mem_nil, or_false] at hx
  rcases hx with rfl | rfl | rfl | rfl
  · refine ⟨5, 0, _, ?_, rfl, Or.inl ⟨rfl, rfl⟩⟩
    rw [insnAt, ← h5]
    exact (BitVec.add_zero _).symm
  · refine ⟨15, 8, _, ?_, rfl, Or.inr ⟨rfl, rfl⟩⟩
    rw [insnAt, ← h15]
    rfl
  · refine ⟨14, 0, _, ?_, rfl, Or.inl ⟨rfl, rfl⟩⟩
    rw [insnAt, ← h14]
    exact (BitVec.add_zero _).symm
  · refine ⟨14, 8, _, ?_, rfl, Or.inr ⟨rfl, rfl⟩⟩
    rw [insnAt, ← h14]
    rfl

theorem addr_not_mem_compared (hstart : start.toNat + 456 ≤ 2 ^ 47) {x : Symbol}
    (hx : x ∈ [Symbol.f1, .f2, .f3, .f4]) : (Match.start start).sym x ∉ compared start := by
  obtain ⟨k, c, row, heq, hrow, hc⟩ := @patched_cases start x hx
  intro hmem
  rw [heq] at hmem
  have h := compared_symbol hstart hrow (by omega) hmem
  rcases hc with ⟨rfl, hany⟩ | ⟨rfl, hany⟩ <;> simp [hany] at h

theorem addr_aligned (hstart : start.toNat + 456 ≤ 2 ^ 47) (haligned : start.toNat % 8 = 0)
    {x : Symbol} (hx : x ∈ [Symbol.f1, .f2, .f3, .f4]) :
    ((Match.start start).sym x).toNat % 8 = 0 := by
  obtain ⟨k, c, row, heq, hrow, hc⟩ := @patched_cases start x hx
  have hk : k < 19 := (List.getElem?_eq_some_iff.mp hrow).1
  rw [heq, BitVec.toNat_add, insnAt_toNat hstart hk, BitVec.toNat_ofNat]
  omega

/-- The block writes no compared field but through what is left over in the B fields of 14
and 15. -/
theorem not_touched (h : Loop v.size v.dynMap v.mem desc) (haligned : desc.start.toNat % 8 = 0)
    (ha : a ∈ compared desc.start) {k : ℕ} (hk : k < 19) (h14 : k ≠ 14) (h15 : k ≠ 15) :
    ¬ Touches (read v.mem (insnAt desc.start k + 8)) a := by
  have hsize := v.size.le
  have hle := h.start_le
  have hstart : desc.start.toNat + 456 ≤ 2 ^ 47 := by omega
  intro hmem
  obtain ⟨ha8, hlt, hgt⟩ := hmem.bounds
  obtain hvar | ⟨x, hx, heq⟩ := fieldB_cases h hk h14 h15
  · -- a variable is outside of the loop
    obtain ⟨j, f, hj, hf, htoNat⟩ := isField_compared hstart ha
    obtain ⟨hv8, hapart⟩ := h.var _ hvar
    unfold MemSize.Holds at hapart
    omega
  · have haddr : desc.addr x = (Match.start desc.start).sym x := by
      simp only [List.mem_cons, List.not_mem_nil, or_false] at hx
      rcases hx with rfl | rfl | rfl | rfl <;> rfl
    rw [heq, haddr] at hlt hgt
    have hx8 := addr_aligned hstart haligned hx
    have hxa : a = (Match.start desc.start).sym x := BitVec.eq_of_toNat_eq (by omega)
    exact addr_not_mem_compared hstart hx (hxa ▸ ha)

/-! ## The marks -/

theorem Marks.smask_field (M : Marks) {i j f : ℕ} :
    (M.field i p f).smask j = true ↔ M.smask j = true ∨ j = i * 3 + f := by
  show Function.update M.smask (i * 3 + f) true j = true ↔ _
  by_cases hj : j = i * 3 + f
  · simp [hj]
  · simp [hj]

theorem Marks.smask_insn (M : Marks) {i j : ℕ} :
    (M.insn src i p).smask j = true ↔ M.smask j = true ∨
      ∃ f < 3, j = i * 3 + f ∧ src.dynamic (p + 8 * BitVec.ofNat 64 f) = false := by
  have hfield : ∀ (N : Marks) f, (if src.dynamic (p + 8 * BitVec.ofNat 64 f) then N
      else N.field i p f).smask j = true ↔ N.smask j = true ∨
        j = i * 3 + f ∧ src.dynamic (p + 8 * BitVec.ofNat 64 f) = false := by
    intro N f
    split_ifs with hdyn
    · rw [hdyn]
      simp only [reduceCtorEq, and_false, or_false]
    · rw [Bool.eq_false_of_not_eq_true hdyn, Marks.smask_field]
      simp only [and_true]
  simp only [Marks.insn, List.foldl_cons, List.foldl_nil]
  rw [hfield, hfield, hfield]
  constructor
  · rintro (((h | h) | h) | h)
    · exact Or.inl h
    · exact Or.inr ⟨0, by decide, h⟩
    · exact Or.inr ⟨1, by decide, h⟩
    · exact Or.inr ⟨2, by decide, h⟩
  · rintro (h | ⟨f, hf, h⟩)
    · exact Or.inl (Or.inl (Or.inl h))
    · interval_cases f
      · exact Or.inl (Or.inl (Or.inr h))
      · exact Or.inl (Or.inr h)
      · exact Or.inr h

theorem Marks.staticMap_insn (M : Marks) {i : ℕ} {w : Word}
    (h : M.staticMap w = true ∨ ∃ f < 3, w = p >>> 3 + BitVec.ofNat 64 f ∧
      src.dynamic (p + 8 * BitVec.ofNat 64 f) = false) :
    (M.insn src i p).staticMap w = true := by
  have hfield : ∀ (N : Marks) f, (N.staticMap w = true ∨
      w = p >>> 3 + BitVec.ofNat 64 f ∧ src.dynamic (p + 8 * BitVec.ofNat 64 f) = false) →
      (if src.dynamic (p + 8 * BitVec.ofNat 64 f) then N
        else N.field i p f).staticMap w = true := by
    intro N f h
    split_ifs with hdyn
    · rcases h with h | ⟨-, h⟩
      · exact h
      · exact absurd (hdyn.symm.trans h) (by decide)
    · show Function.update N.staticMap (p >>> 3 + BitVec.ofNat 64 f) true w = true
      by_cases hw : w = p >>> 3 + BitVec.ofNat 64 f
      · simp [hw]
      · rw [Function.update_of_ne hw]
        exact h.resolve_right fun h => hw h.1
  simp only [Marks.insn, List.foldl_cons, List.foldl_nil]
  rcases h with h | ⟨f, hf, h⟩
  · exact hfield _ 2 (Or.inl (hfield _ 1 (Or.inl (hfield _ 0 (Or.inl h)))))
  · interval_cases f
    · exact hfield _ 2 (Or.inl (hfield _ 1 (Or.inl (hfield _ 0 (Or.inr h)))))
    · exact hfield _ 2 (Or.inl (hfield _ 1 (Or.inr h)))
    · exact hfield _ 2 (Or.inr h)

/-- A static C that is the next instruction ends no block. -/
theorem translateInsn_next {i : ℕ} {ended : Bool} (hdyn : src.dynamic (p + 16) = false)
    (hnext : src.raw (p + 16) = p + 24)
    (h : translateInsn src i p J = some (ended, J', code)) : ended = false := by
  unfold translateInsn at h
  rw [Emitter.modifyState_bind] at h
  obtain ⟨fa, J₁, c₁, c₁', -, h, -⟩ := bind_eq_some.mp h
  obtain ⟨fb, J₂, c₂, c₂', -, h, -⟩ := bind_eq_some.mp h
  obtain ⟨fc, J₃, c₃, c₃', hfc, h, -⟩ := bind_eq_some.mp h
  obtain rfl : fc = ⟨false, p + 24, .none⟩ := by
    unfold Translator.field at hfc
    rw [hdyn, if_neg Bool.false_ne_true, hnext] at hfc
    exact (pure_eq_some.mp hfc).1.symm
  obtain ⟨rb, J₄, c₄, c₄', -, h, -⟩ := bind_eq_some.mp h
  obtain ⟨r, J₅, c₅, c₅', -, h, -⟩ := bind_eq_some.mp h
  rw [Emitter.modifyState_bind] at h
  obtain ⟨spanned, J₆, c₆, c₆', -, h, -⟩ := bind_eq_some.mp h
  rw [Emitter.modifyState_bind] at h
  obtain ⟨ended', J₇, c₇, c₇', hended, h, -⟩ := bind_eq_some.mp h
  obtain ⟨u, J₈, c₈, c₈', -, h, -⟩ := bind_eq_some.mp h
  obtain rfl := (pure_eq_some.mp h).1
  unfold Translator.branchTo at hended
  rw [if_neg (by simp)] at hended
  exact (pure_eq_some.mp hended).1.symm

/-- The marks that the instructions from `i` to `n` leave. -/
structure MarksOf (src : Source) (start : Word) (M : Marks) (i n : ℕ) (M' : Marks) : Prop where
  smask : ∀ j, M'.smask j = true ↔ M.smask j = true ∨ ∃ l f, i ≤ l ∧ l < n ∧ f < 3 ∧
    j = l * 3 + f ∧ src.dynamic (insnAt start l + 8 * BitVec.ofNat 64 f) = false
  staticMap : ∀ w, (M.staticMap w = true ∨ ∃ l f, i ≤ l ∧ l < n ∧ f < 3 ∧
    w = insnAt start l >>> 3 + BitVec.ofNat 64 f ∧
      src.dynamic (insnAt start l + 8 * BitVec.ofNat 64 f) = false) → M'.staticMap w = true

theorem MarksOf.refl (i : ℕ) : MarksOf src start M i i M where
  smask j := by
    refine ⟨Or.inl, ?_⟩
    rintro (h | ⟨l, f, hil, hli, -⟩)
    · exact h
    · omega
  staticMap w := by
    rintro (h | ⟨l, f, hil, hli, -⟩)
    · exact h
    · omega

theorem MarksOf.insn {i n : ℕ} (hi : i < n)
    (h : MarksOf src start (M.insn src i (insnAt start i)) (i + 1) n M') :
    MarksOf src start M i n M' where
  smask j := by
    rw [h.smask, Marks.smask_insn, or_assoc]
    apply or_congr_right
    constructor
    · rintro (⟨f, hf, h⟩ | ⟨l, f, hil, h⟩)
      · exact ⟨i, f, Nat.le_refl i, hi, hf, h⟩
      · exact ⟨l, f, Nat.le_of_succ_le hil, h⟩
    · rintro ⟨l, f, hil, hln, hf, h⟩
      obtain rfl | hlt := Nat.eq_or_lt_of_le hil
      · exact Or.inl ⟨f, hf, h⟩
      · exact Or.inr ⟨l, f, hlt, hln, hf, h⟩
  staticMap w := by
    intro hw
    apply h.staticMap
    rcases hw with hw | ⟨l, f, hil, hln, hf, hw⟩
    · exact Or.inl (Marks.staticMap_insn M (Or.inl hw))
    · obtain rfl | hlt := Nat.eq_or_lt_of_le hil
      · exact Or.inl (Marks.staticMap_insn M (Or.inr ⟨f, hf, hw⟩))
      · exact Or.inr ⟨l, f, hlt, hln, hf, hw⟩

theorem translateMarked_marks {i k n : ℕ}
    (h : translateMarked src start M i k J = some ((n, M'), J', code)) :
    (0 < k → i < n) ∧ MarksOf src start M i n M' := by
  induction k generalizing i M J code with
  | zero =>
      cases (pure_eq_some.mp h).1
      exact ⟨nofun, .refl _⟩
  | succ k ih =>
      obtain ⟨ended, J₁, c₁, c₂, hinsn, h, -⟩ := bind_eq_some.mp h
      cases ended with
      | true =>
          cases (pure_eq_some.mp h).1
          exact ⟨fun _ => Nat.lt_succ_self i, .insn (Nat.lt_succ_self i) (.refl _)⟩
      | false =>
          obtain ⟨hlt, hmarks⟩ := ih h
          have hi : i < n := by
            cases k with
            | zero =>
                cases (pure_eq_some.mp h).1
                exact Nat.lt_succ_self i
            | succ k => exact Nat.lt_of_succ_lt (hlt (Nat.succ_pos k))
          exact ⟨fun _ => hi, .insn hi hmarks⟩

/-- Instructions with the next one as a static C are all translated. -/
theorem translateMarked_all {i k n : ℕ}
    (hnext : ∀ l, i ≤ l → l + 1 < i + k → src.dynamic (insnAt start l + 16) = false ∧
      src.raw (insnAt start l + 16) = insnAt start l + 24)
    (h : translateMarked src start M i k J = some ((n, M'), J', code)) : n = i + k := by
  induction k generalizing i M J code with
  | zero =>
      cases (pure_eq_some.mp h).1
      rfl
  | succ k ih =>
      obtain ⟨ended, J₁, c₁, c₂, hinsn, h, -⟩ := bind_eq_some.mp h
      cases ended with
      | true =>
          cases (pure_eq_some.mp h).1
          cases k with
          | zero => rfl
          | succ k =>
              obtain ⟨hdyn, hraw⟩ := hnext i (Nat.le_refl i) (by omega)
              exact absurd (translateInsn_next hdyn hraw hinsn) (by decide)
      | false =>
          rw [ih (fun l hl hlt => hnext l (by omega) (by omega)) h]
          omega

/-! ## The guard -/

/-- What is left over in the B fields of 14 and 15 touches no field that `match_copy`
compared, where these are static. -/
def LeftoversApart (v : View) (start : Word) : Prop :=
  ∀ k, k = 14 ∨ k = 15 → v.dynMap ((insnAt start k + 8) >>> 3) = true ∨
    ∀ a ∈ compared start, ¬ Touches (read v.mem (insnAt start k + 8)) a

/-- Every word that `match_copy` compared is in the static mask, and marked. -/
def Guarded (start : Word) (T : Translation) : Prop :=
  ∀ a ∈ compared start, T.marks.smask ((a - start) >>> 3).toNat = true ∧
    T.marks.staticMap (a >>> 3) = true

theorem exists_isDynamic_iff (h : Loop v.size v.dynMap v.mem desc)
    (haligned : desc.start.toNat % 8 = 0) (hwritten : ∀ w, written w = true ↔
      WrittenFrom v desc.start 0 w) (ha : a ∈ compared desc.start) :
    isDynamic v written desc.start a = true ↔
      ∃ k, (k = 14 ∨ k = 15) ∧ v.dynMap ((insnAt desc.start k + 8) >>> 3) = false ∧
        Touches (read v.mem (insnAt desc.start k + 8)) a := by
  have hsize := v.size.le
  have hle := h.start_le
  have hstart : desc.start.toNat + 456 ≤ 2 ^ 47 := by omega
  obtain ⟨j, f, hfield⟩ := isField_compared hstart ha
  have hfield8 : a.toNat % 8 = 0 := by
    have htoNat := hfield.toNat
    omega
  have hin := ((hfield.index_eq_iff hstart haligned hfield8).mpr rfl).1
  unfold isDynamic
  rw [h.notDynamic a ha, hin, Bool.false_or, Bool.true_and, hwritten,
    writtenFrom_compared h haligned ha]
  constructor
  · rintro ⟨k, hk, hdyn, hmem⟩
    refine ⟨k, ?_, hdyn, hmem⟩
    by_contra hne
    exact not_touched h haligned ha hk (fun h => hne (Or.inl h)) (fun h => hne (Or.inr h)) hmem
  · rintro ⟨k, hk, h⟩
    exact ⟨k, by omega, h⟩

/-- How a block with a call of `jit_copy` was made. -/
theorem translate_copy {T : Translation} (h : translate v M J start = some T)
    (hcopy : T.copy = some desc) :
    Loop v.size v.dynMap v.mem desc ∧ desc.start = start ∧ start.toNat % 8 = 0 ∧
      ∃ written J' code, (∀ w, written w = true ↔ WrittenFrom v start 0 w) ∧
        translateMarked (sourceOf v start 19 written) start { M with smask := fun _ => false } 0 19
          J = some ((T.n, T.marks), J', code) := by
  unfold translate at h
  split_ifs at h with hbounds
  have haligned : start.toNat % 8 = 0 := by
    have hbits := not_not.mp (not_or.mp hbounds).1
    rw [← toNat_and_seven, hbits]
    rfl
  obtain ⟨⟨n, written⟩, hextent, h⟩ := Option.bind_eq_some_iff.mp h
  obtain ⟨⟨⟨m, M'⟩, J', code⟩, hmarked, rfl⟩ := Option.map_eq_some_iff.mp h
  dsimp only at hcopy hmarked
  obtain ⟨-, hmatch⟩ := Option.ite_none_right_eq_some.mp hcopy
  obtain ⟨hloop, rfl⟩ := matchCopy_eq_some hmatch
  unfold extentOf at hextent
  simp only [hmatch, Option.isSome_some, if_true] at hextent
  obtain ⟨rfl, hwritten⟩ := extent_loop hloop (Nat.zero_add 19) hextent
  refine ⟨hloop, rfl, haligned, written, J', code, fun w => ?_, hmarked⟩
  rw [hwritten]
  simp

/-- The words compared are guarded exactly if the leftovers leave them alone. -/
theorem guarded_iff {T : Translation} (h : translate v M J start = some T)
    (hcopy : T.copy = some desc) : Guarded start T ↔ LeftoversApart v start := by
  obtain ⟨hloop, rfl, haligned, written, J', code, hwritten, hmarked⟩ :=
    translate_copy h hcopy
  have hsize := v.size.le
  have hle := hloop.start_le
  have hstart : desc.start.toNat + 456 ≤ 2 ^ 47 := by omega
  have hdyn := fun a ha => exists_isDynamic_iff (a := a) hloop haligned hwritten ha
  obtain ⟨-, hmarks⟩ := translateMarked_marks hmarked
  have hindex : ∀ a ∈ compared desc.start, ∃ k f, IsField desc.start a k f ∧
      a = insnAt desc.start k + 8 * BitVec.ofNat 64 f ∧
      ((a - desc.start) >>> 3).toNat = k * 3 + f ∧
      a >>> 3 = insnAt desc.start k >>> 3 + BitVec.ofNat 64 f := by
    intro a ha
    obtain ⟨k, f, hfield⟩ := isField_compared hstart ha
    have hinsn := insnAt_toNat hstart hfield.insn
    have htoNat := hfield.toNat
    have hf := hfield.place
    have hk := hfield.insn
    refine ⟨k, f, hfield, ?_, ?_, ?_⟩
    · bv_omega
    · bv_omega
    · bv_omega
  constructor
  · intro hguarded k hk
    by_contra hnot
    simp only [not_or, not_forall, not_not, Bool.not_eq_true] at hnot
    obtain ⟨hk0, a, ha, hmem⟩ := hnot
    obtain ⟨j, f, hfield, haddr, hbit, -⟩ := hindex a ha
    have hstatic := (hmarks.smask _).mp (hguarded a ha).1
    obtain hnever | ⟨l, f', -, -, hf', heq, hclear⟩ := hstatic
    · exact absurd hnever Bool.false_ne_true
    · -- the bit is that of the field itself, which is dynamic
      have hf := hfield.place
      obtain ⟨rfl, rfl⟩ : l = j ∧ f' = f := by omega
      rw [← haddr] at hclear
      exact absurd (((hdyn a ha).mpr ⟨k, hk, hk0, hmem⟩).symm.trans hclear) (by decide)
  · intro hapart a ha
    have hclear : ∀ a ∈ compared desc.start, isDynamic v written desc.start a = false := by
      intro a ha
      rw [Bool.eq_false_iff, Ne, hdyn a ha]
      rintro ⟨k, hk, hk0, hmem⟩
      rcases hapart k hk with hk1 | hnone
      · rw [hk0] at hk1
        contradiction
      · exact hnone a ha hmem
    have hall : T.n = 0 + 19 := by
      apply translateMarked_all _ hmarked
      intro l _ hl
      have hnext := hloop.next l (by omega)
      rw [nextOf, if_neg (by omega)] at hnext
      exact ⟨hclear _ (compared_c (by omega)), hnext⟩
    obtain ⟨j, f, hfield, haddr, hbit, hword⟩ := hindex a ha
    have hj := hfield.insn
    have hfield : 0 ≤ j ∧ j < T.n ∧ f < 3 := ⟨Nat.zero_le j, by omega, hfield.place⟩
    have hclear' := haddr ▸ hclear a ha
    constructor
    · exact (hmarks.smask _).mpr
        (Or.inr ⟨j, f, hfield.1, hfield.2.1, hfield.2.2, hbit, hclear'⟩)
    · exact hmarks.staticMap _
        (Or.inr ⟨j, f, hfield.1, hfield.2.1, hfield.2.2, hword, hclear'⟩)

def sampleView : View where
  size := sampleSize
  mem := sampleMemory
  dynMap := fun _ => false
  found := fun _ => false

def noMarks : Marks := ⟨fun _ => false, fun _ => false, fun _ => false⟩

/-- A loop whose patched fields hold zeros. -/
theorem guarded_iff_sample :
    ∃ T, translate sampleView noMarks (.start true 0 0 0) 4096 = some T ∧ T.n = 19 ∧
      (Guarded 4096 T ↔ LeftoversApart sampleView 4096) := by
  have hsome : (translate sampleView noMarks (.start true 0 0 0) 4096).map
      (fun T => (T.copy, T.n)) = some (some sampleDesc, 19) := by decide +kernel
  obtain ⟨T, hT, heq⟩ := Option.map_eq_some_iff.mp hsome
  obtain ⟨hcopy, hn⟩ := Prod.mk.inj heq
  exact ⟨T, hT, hn, guarded_iff hT hcopy⟩

/-- The loop when the B field of 14 was left pointing to the first C field. -/
def staleView : View :=
  { sampleView with mem := write sampleMemory (4096 + 14 * 24 + 8) (4096 + 16) }

/-- Its first instruction jumps through a C that counts as dynamic and ends the block, which
calls `jit_copy` with none of the other fields marked. -/
theorem not_guarded_stale :
    ¬ ∀ v M J start T desc, translate v M J start = some T → T.copy = some desc →
      Guarded start T := by
  intro h
  have hsome : (translate staleView noMarks (.start true 0 0 0) 4096).map
      (fun T => (T.copy, T.marks.smask 2)) = some (some sampleDesc, false) := by decide +kernel
  obtain ⟨T, hT, heq⟩ := Option.map_eq_some_iff.mp hsome
  obtain ⟨hcopy, hbit⟩ := Prod.mk.inj heq
  have hguarded := (h _ _ _ _ T _ hT hcopy (4096 + 16) (by decide)).1
  exact absurd (hbit.symm.trans hguarded) (by decide)

end CopyGuard
end SubleqEmu
