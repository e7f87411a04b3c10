import SubleqEmu.CopyLoopIteration

/-!
# `jit_copy` is the loop

An induction over the iterations gives the memory after each of them; the block
copy and the nine stores of `jit_copy` leave the same bytes as the last.
-/

namespace SubleqEmu
namespace CopyLoop

open ByteMemory Subleq

variable {size : MemSize} {mem m m' : Memory} {desc : Desc}

/-! ## Ranges -/

/-- What `jit_copy` has made sure of before it copies `n` words from `s` to `d`. -/
structure Ranges (size : MemSize) (desc : Desc) (s d : Word) (n : ℕ) : Prop where
  s_le : s.toNat + 8 * n ≤ size.val
  d_le : d.toNat + 8 * n ≤ size.val
  order : d.toNat ≤ s.toNat ∨ s.toNat + 8 * n ≤ d.toNat
  s_apart : ∀ v ∈ [desc.t1, desc.t2, desc.s, desc.d, desc.c],
    v.toNat + 8 ≤ s.toNat ∨ s.toNat + 8 * n ≤ v.toNat
  d_apart : ∀ v ∈ [desc.t1, desc.t2, desc.s, desc.d, desc.c, desc.m],
    v.toNat + 8 ≤ d.toNat ∨ d.toNat + 8 * n ≤ v.toNat
  s_loop : desc.start.toNat + 456 ≤ s.toNat ∨ s.toNat + 8 * n ≤ desc.start.toNat
  d_loop : desc.start.toNat + 456 ≤ d.toNat ∨ d.toNat + 8 * n ≤ desc.start.toNat
  holds : ∀ v ∈ [desc.t1, desc.t2, desc.s, desc.d, desc.c, desc.m], size.Holds v

theorem overlaps_eq_false {a alen b blen : Word} (ha : a.toNat + alen.toNat < 2 ^ 64)
    (hb : b.toNat + blen.toNat < 2 ^ 64) :
    overlaps a alen b blen = false ↔
      b.toNat + blen.toNat ≤ a.toNat ∨ a.toNat + alen.toNat ≤ b.toNat := by
  simp only [overlaps, Bool.and_eq_false_iff, decide_eq_false_iff_not]
  constructor <;> rintro (h | h) <;> [left; right; left; right] <;> bv_omega

theorem apart_of_le {a b : Word} (h : a.toNat + 8 ≤ b.toNat) (hb : b.toNat + 8 ≤ 2 ^ 64) :
    Apart a b := by
  unfold Apart
  bv_omega

theorem fieldAt_toNat {start : Word} {i : ℕ} (h : start.toNat + 456 ≤ 2 ^ 47) (hi : i < 57) :
    (fieldAt start i).toNat = start.toNat + 8 * i := by
  unfold fieldAt
  bv_omega

/-- A word outside of the loop is apart from its fields. -/
theorem apart_fieldAt {start v : Word} (hstart : start.toNat + 456 ≤ 2 ^ 47)
    (hv : v.toNat + 8 ≤ 2 ^ 47)
    (h : v.toNat + 8 ≤ start.toNat ∨ start.toNat + 456 ≤ v.toNat) {i : ℕ} (hi : i < 57) :
    Apart v (fieldAt start i) := by
  have hfield := fieldAt_toNat hstart hi
  rcases h with h | h
  · exact apart_of_le (by omega) (by omega)
  · exact (apart_of_le (by omega) (by omega)).symm

theorem fieldAt_apart {start : Word} (hstart : start.toNat + 456 ≤ 2 ^ 47) {i j : ℕ}
    (hi : i < 57) (hj : j < 57) (hne : i ≠ j) :
    Apart (fieldAt start i) (fieldAt start j) := by
  have hfield := fieldAt_toNat hstart hi
  have hfield' := fieldAt_toNat hstart hj
  rcases Nat.lt_or_gt_of_ne hne with h | h
  · exact apart_of_le (by omega) (by omega)
  · exact (apart_of_le (by omega) (by omega)).symm

/-- The field of a cell in the loop. -/
def Cell.field : Cell → Option ℕ
  | .f1 => some 15
  | .f2 => some 46
  | .f3 => some 42
  | .f4 => some 43
  | _ => none

/-- The variable of a cell, by its place among them. -/
def Cell.var : Cell → Option ℕ
  | .t1 => some 0
  | .t2 => some 1
  | .s => some 2
  | .d => some 3
  | .c => some 4
  | .m => some 5
  | _ => none

theorem addr_of_field (desc : Desc) (dst : Word) {x : Cell} {i : ℕ} (h : x.field = some i) :
    x.addr desc dst = fieldAt desc.start i ∧ i ∈ patched ∧ i < 57 := by
  cases x <;> simp only [Cell.field, Option.some.injEq, reduceCtorEq] at h <;> subst h <;>
    exact ⟨rfl, by decide, by decide⟩

theorem addr_of_var (desc : Desc) (dst : Word) {x : Cell} {i : ℕ} (h : x.var = some i) :
    [desc.t1, desc.t2, desc.s, desc.d, desc.c, desc.m][i]? = some (x.addr desc dst) := by
  cases x <;> simp only [Cell.var, Option.some.injEq, reduceCtorEq] at h <;> subst h <;> rfl

theorem field_inj {x y : Cell} {i : ℕ} (hx : x.field = some i) (hy : y.field = some i) :
    x = y := by
  cases x <;> cases y <;> simp [Cell.field] at hx hy ⊢ <;> omega

theorem var_inj {x y : Cell} {i : ℕ} (hx : x.var = some i) (hy : y.var = some i) :
    x = y := by
  cases x <;> cases y <;> simp [Cell.var] at hx hy ⊢ <;> omega

theorem Cell.kind (x : Cell) : (∃ i, x.field = some i) ∨ (∃ i, x.var = some i) ∨ x = .dst := by
  cases x <;> first
    | exact Or.inl ⟨_, rfl⟩
    | exact Or.inr (Or.inl ⟨_, rfl⟩)
    | exact Or.inr (Or.inr rfl)

section Place

variable {dynMap : Word → Bool} {s d : Word} {n : ℕ}

/-- The cells are apart from each other and from the code, wherever in the
destination the next word goes. -/
theorem Ranges.setting (hloop : Loop size dynMap mem desc) (h : Ranges size desc s d n)
    (dst : Word) (hlow : d.toNat ≤ dst.toNat) (hhigh : dst.toNat + 8 ≤ d.toNat + 8 * n) :
    Setting size mem desc dst := by
  have hsize := size.le
  have hstart : desc.start.toNat + 456 ≤ 2 ^ 47 := hloop.start_le.trans hsize
  have hd := h.d_le
  have hvar : ∀ {x : Cell} {i : ℕ}, x.var = some i →
      x.addr desc dst ∈ [desc.t1, desc.t2, desc.s, desc.d, desc.c, desc.m] :=
    fun hx => List.mem_of_getElem? (addr_of_var desc dst hx)
  have hholds : ∀ {x : Cell} {i : ℕ}, x.var = some i →
      (x.addr desc dst).toNat + 8 ≤ size.val := fun hx => h.holds _ (hvar hx)
  have hcode : ∀ (x : Cell) (i : ℕ), i < 57 → x.field ≠ some i →
      Apart (x.addr desc dst) (fieldAt desc.start i) := by
    intro x i hi hne
    rcases x.kind with ⟨j, hj⟩ | ⟨j, hj⟩ | rfl
    · obtain ⟨hx, -, hlt⟩ := addr_of_field desc dst hj
      rw [hx]
      exact fieldAt_apart hstart hlt hi fun heq => hne (heq ▸ hj)
    · exact apart_fieldAt hstart ((hholds hj).trans hsize)
        ((hloop.var _ (hvar hj)).2 (h.holds _ (hvar hj))) hi
    · have hloopD := h.d_loop
      exact apart_fieldAt (v := dst) hstart (by omega) (by omega) hi
  have hdst : ∀ {x : Cell} {i : ℕ}, x.var = some i → Apart (x.addr desc dst) dst := by
    intro x i hx
    have hv := hholds hx
    rcases h.d_apart _ (hvar hx) with hrange | hrange
    · exact apart_of_le (by omega) (by omega)
    · exact (apart_of_le (by omega) (by omega)).symm
  refine ⟨⟨dynMap, hloop⟩, ?_, ?_, ?_⟩
  · intro x
    rcases x.kind with ⟨i, hi⟩ | ⟨i, hi⟩ | rfl
    · obtain ⟨hx, -, hlt⟩ := addr_of_field desc dst hi
      have hfield := fieldAt_toNat hstart hlt
      have := hloop.start_le
      unfold MemSize.Holds
      rw [hx, hfield]
      omega
    · exact hholds hi
    · change dst.toNat + 8 ≤ size.val
      omega
  · intro x y hne
    rcases y.kind with ⟨j, hj⟩ | ⟨j, hj⟩ | rfl
    · obtain ⟨hy, -, hlt⟩ := addr_of_field desc dst hj
      rw [hy]
      exact hcode x j hlt fun hx => hne (field_inj hx hj)
    · rcases x.kind with ⟨i, hi⟩ | ⟨i, hi⟩ | rfl
      · obtain ⟨hx, -, hlt⟩ := addr_of_field desc dst hi
        rw [hx]
        exact (hcode y i hlt (by cases y <;> simp_all [Cell.field, Cell.var])).symm
      · -- two variables are different words on word boundaries
        refine apart_of_ne (hloop.var _ (hvar hi)).1 (hloop.var _ (hvar hj)).1 fun heq => ?_
        have hx := addr_of_var desc dst hi
        have hy := addr_of_var desc dst hj
        rw [← heq] at hy
        have hlt := (List.getElem?_eq_some_iff.mp hx).1
        have hij := (List.getElem?_inj hlt hloop.vars_nodup).mp (hx.trans hy.symm)
        exact hne (var_inj hi (hij ▸ hj))
      · exact (hdst hj).symm
    · rcases x.kind with ⟨i, hi⟩ | ⟨i, hi⟩ | rfl
      · obtain ⟨hx, -, hlt⟩ := addr_of_field desc dst hi
        rw [hx]
        exact (hcode .dst i hlt nofun).symm
      · exact hdst hi
      · exact absurd rfl hne
  · intro x i hi hnot
    refine hcode x i hi fun hx => hnot ?_
    exact (addr_of_field desc dst hx).2.1

end Place

/-! ## The loop as it runs -/

theorem compared_eq (start : Word) :
    compared start = ((List.range 57).filter (· ∉ patched)).map (fieldAt start) := by
  unfold compared
  simp only [insnAt_add_eight, insnAt_add_sixteen]
  simp only [insnAt_eq_fieldAt]
  rfl

theorem mem_compared_iff {start a : Word} :
    a ∈ compared start ↔ ∃ i < 57, i ∉ patched ∧ fieldAt start i = a := by
  simp only [compared_eq, List.mem_map, List.mem_filter, List.mem_range, decide_eq_true_eq,
    and_assoc]

/-- A loop stays one while the words stay that were compared. -/
theorem Loop.congr {dynMap : Word → Bool} (h : Loop size dynMap mem desc)
    (hsame : ∀ a ∈ compared desc.start, read m a = read mem a) : Loop size dynMap m desc := by
  have hfield : ∀ i < 57, i ∉ patched →
      read m (fieldAt desc.start i) = read mem (fieldAt desc.start i) :=
    fun i hi hnot => hsame _ (mem_compared_iff.mpr ⟨i, hi, hnot, rfl⟩)
  have hlt : ∀ {k : ℕ} {row : Symbol × Symbol}, copyTmpl[k]? = some row → k < 19 :=
    fun hrow => (List.getElem?_eq_some_iff.mp hrow).1
  have hA : ∀ k a b, copyTmpl[k]? = some (a, b) → a ≠ .any → 3 * k ∉ patched := by
    intro k a b hrow hany
    have hk := hlt hrow
    interval_cases k <;> obtain ⟨rfl, rfl⟩ := Prod.mk.inj (Option.some.inj hrow) <;>
      first | decide | exact absurd rfl hany
  have hB : ∀ k a b, copyTmpl[k]? = some (a, b) → b ≠ .any → 3 * k + 1 ∉ patched := by
    intro k a b hrow hany
    have hk := hlt hrow
    interval_cases k <;> obtain ⟨rfl, rfl⟩ := Prod.mk.inj (Option.some.inj hrow) <;>
      first | decide | exact absurd rfl hany
  refine { h with next := ?_, fieldA := ?_, fieldB := ?_, fieldsSd := ?_ }
  · intro k hk
    rw [insnAt_add_sixteen, hfield _ (by omega) (by simp [patched]; omega),
      ← insnAt_add_sixteen, h.next k hk]
  · intro k a b hrow hany hsd
    have hk := hlt hrow
    rw [insnAt_eq_fieldAt, hfield _ (by omega) (hA k a b hrow hany), ← insnAt_eq_fieldAt,
      h.fieldA k a b hrow hany hsd]
  · intro k a b hrow hany hsd
    have hk := hlt hrow
    rw [insnAt_add_eight, hfield _ (by omega) (hB k a b hrow hany), ← insnAt_add_eight,
      h.fieldB k a b hrow hany hsd]
  · rw [insnAt_add_eight, insnAt_add_eight, hfield _ (by decide) (by decide),
      hfield _ (by decide) (by decide), ← insnAt_add_eight, ← insnAt_add_eight]
    exact h.fieldsSd

/-! ## Counting -/

theorem totalOf_toNat (c : Word) :
    (totalOf c).toNat = if c.toInt ≤ -8 then ((-8 - c.toInt) / 8).toNat + 2 else 1 := by
  have hc := BitVec.le_two_mul_toInt (x := c)
  have hnat : (c.toNat : ℤ) = if c.toInt < 0 then c.toInt + 2 ^ 64 else c.toInt := by
    rw [BitVec.toInt_eq_toNat_cond]
    split_ifs <;> omega
  unfold totalOf
  rw [BitVec.sle_eq_decide, show (-8 : Word).toInt = -8 by decide]
  by_cases h : c.toInt ≤ -8
  · have hsub : (-8 - c).toNat = (-8 - c.toInt).toNat := by
      rw [if_pos (by omega)] at hnat
      bv_omega
    have hdiv : (-8 - c).toNat / 8 ≤ 2 ^ 60 := by omega
    simp only [h, decide_true, if_true]
    rw [BitVec.toNat_add, BitVec.toNat_udiv, hsub, show (8 : Word).toNat = 8 by rfl,
      show (2 : Word).toNat = 2 by rfl, Nat.mod_eq_of_lt (by omega)]
    omega
  · simp [h]

theorem totalOf_bounds (c : Word) :
    0 < (totalOf c).toNat ∧ (totalOf c).toNat ≤ 2 ^ 60 + 1 := by
  have hc := BitVec.le_two_mul_toInt (x := c)
  rw [totalOf_toNat]
  split_ifs <;> omega

/-- The loop goes on until the counter was over -8. -/
theorem counter_sle {c : Word} {j : ℕ} (hj : j < (totalOf c).toNat) :
    (c + 8 * BitVec.ofNat 64 j).sle (-8) = decide (j + 1 < (totalOf c).toNat) := by
  have hc := BitVec.le_two_mul_toInt (x := c)
  have hc' := BitVec.two_mul_toInt_lt (x := c)
  have htotal := totalOf_toNat c
  have hvalue : (c + 8 * BitVec.ofNat 64 j).toInt = c.toInt + 8 * j := by
    have hcount : c.toInt + 8 * j ≤ 0 ∨ j = 0 := by
      rw [htotal] at hj
      split_ifs at hj <;> omega
    have hle := (totalOf_bounds c).2
    have hnat : (c + 8 * BitVec.ofNat 64 j).toNat = (c.toNat + 8 * j) % 2 ^ 64 := by bv_omega
    have hcond := BitVec.toInt_eq_toNat_cond c
    rw [BitVec.toInt_eq_toNat_cond, hnat]
    split_ifs at hcond ⊢ <;> omega
  rw [BitVec.sle_eq_decide, hvalue, show (-8 : Word).toInt = -8 by decide]
  congr 1
  rw [htotal] at hj ⊢
  split_ifs at hj ⊢ <;> simp only [eq_iff_iff] <;> omega

/-! ## Iterations -/

/-- What the cells hold after `j` iterations from `m`. -/
def cellsAfter (m : Memory) (desc : Desc) : ℕ → Cell → Word
  | 0 => fun x => read m (x.addr desc 0)
  | j + 1 =>
      iterated (cellsAfter m desc j) (read m (read m desc.s + 8 * BitVec.ofNat 64 j))

theorem cellsAfter_counts (m : Memory) (desc : Desc) (j : ℕ) :
    cellsAfter m desc j .s = read m desc.s + 8 * BitVec.ofNat 64 j ∧
      cellsAfter m desc j .d = read m desc.d + 8 * BitVec.ofNat 64 j ∧
      cellsAfter m desc j .c = read m desc.c + 8 * BitVec.ofNat 64 j ∧
      cellsAfter m desc j .m = read m desc.m := by
  induction j with
  | zero => simp [cellsAfter, Cell.addr]
  | succ j ih =>
      obtain ⟨hs, hd, hc, hm⟩ := ih
      simp only [cellsAfter, iterated, hs, hd, hc, hm]
      refine ⟨?_, ?_, ?_, trivial⟩ <;> bv_omega

theorem iterated_congr {env env' : Cell → Word} (h : ∀ x, x ≠ .dst → env x = env' x)
    (v : Word) : iterated env v = iterated env' v := by
  funext x
  cases x <;> simp [iterated, h]

theorem Cell.addr_of_ne {x : Cell} (hx : x ≠ .dst) (dst : Word) :
    x.addr desc dst = x.addr desc 0 := by
  cases x <;> first | rfl | exact absurd rfl hx

/-- Memory after `j` iterations from `m`. -/
structure After (m : Memory) (desc : Desc) (j : ℕ) (m' : Memory) : Prop where
  code : ∀ i < 57, i ∉ patched →
    read m' (fieldAt desc.start i) = read m (fieldAt desc.start i)
  cell : ∀ x : Cell, x ≠ .dst → read m' (x.addr desc 0) = cellsAfter m desc j x
  copied : ∀ a : Word, (a - read m desc.d).toNat < 8 * j →
    m' a = m (read m desc.s + (a - read m desc.d))
  other : ∀ a : Word, (∀ x : Cell, x ≠ .dst → 8 ≤ (a - x.addr desc 0).toNat) →
    8 * j ≤ (a - read m desc.d).toNat → m' a = m a

theorem After.zero (m : Memory) (desc : Desc) : After m desc 0 m where
  code _ _ _ := rfl
  cell _ _ := rfl
  copied _ ha := absurd ha (Nat.not_lt_zero _)
  other _ _ _ := rfl

section Iterations

variable {dynMap : Word → Bool} {n j : ℕ}

/-- Of the cells only `M` can be in the source. -/
theorem Ranges.source_apart (hloop : Loop size dynMap mem desc) {s d : Word}
    (hranges : Ranges size desc s d n) (hj : j < n) {x : Cell} (hdst : x ≠ .dst)
    (hm : x ≠ .m) : Apart (x.addr desc 0) (s + 8 * BitVec.ofNat 64 j) := by
  have hsize := size.le
  have hs := hranges.s_le
  have hstart : desc.start.toNat + 456 ≤ 2 ^ 47 := hloop.start_le.trans hsize
  have hword : (s + 8 * BitVec.ofNat 64 j).toNat = s.toNat + 8 * j := by bv_omega
  rcases x.kind with ⟨i, hi⟩ | ⟨i, hi⟩ | rfl
  · obtain ⟨hx, -, hlt⟩ := addr_of_field desc 0 hi
    have hout := hranges.s_loop
    rw [hx]
    exact (apart_fieldAt hstart (by omega) (by omega) hlt).symm
  · have hmem : x.addr desc 0 ∈ [desc.t1, desc.t2, desc.s, desc.d, desc.c] := by
      cases x <;> simp [Cell.addr, Cell.var] at hi hm ⊢
    have hholds := hranges.holds _ (List.mem_of_getElem? (addr_of_var desc 0 hi))
    unfold MemSize.Holds at hholds
    rcases hranges.s_apart _ hmem with hv | hv
    · exact apart_of_le (by omega) (by omega)
    · exact (apart_of_le (by omega) (by omega)).symm
  · exact absurd rfl hdst

/-- None of the cells is in the destination. -/
theorem Ranges.destination_far (hloop : Loop size dynMap mem desc) {s d a : Word}
    (hranges : Ranges size desc s d n) (ha : (a - d).toNat < 8 * n) {x : Cell}
    (hdst : x ≠ .dst) : 8 ≤ (a - x.addr desc 0).toNat := by
  have hsize := size.le
  have hd := hranges.d_le
  have hset := hranges.setting hloop (d + 8 * BitVec.ofNat 64 ((a - d).toNat / 8))
    (by bv_omega) (by bv_omega)
  have hapart : Apart (x.addr desc _) (d + 8 * BitVec.ofNat 64 ((a - d).toNat / 8)) :=
    hset.apart x .dst hdst
  rw [x.addr_of_ne hdst] at hapart
  obtain ⟨hbelow, habove⟩ := hapart
  bv_omega

/-- The next word of the source is still as it was. -/
theorem After.source (hloop : Loop size dynMap m desc)
    (hranges : Ranges size desc (read m desc.s) (read m desc.d) n) (hj : j < n)
    (h : After m desc j m') :
    read m' (read m desc.s + 8 * BitVec.ofNat 64 j) =
      read m (read m desc.s + 8 * BitVec.ofNat 64 j) := by
  have hsize := size.le
  have hs := hranges.s_le
  have hstart : desc.start.toNat + 456 ≤ 2 ^ 47 := hloop.start_le.trans hsize
  apply read_congr
  intro k hk
  by_cases hfar : 8 ≤ (read m desc.s + 8 * BitVec.ofNat 64 j + BitVec.ofNat 64 k -
      Cell.m.addr desc 0).toNat
  · apply h.other
    · intro x hx
      by_cases hxm : x = .m
      · rwa [hxm]
      · obtain ⟨hbelow, habove⟩ := hranges.source_apart hloop hj hx hxm
        bv_omega
    · have horder := hranges.order
      have hd := hranges.d_le
      bv_omega
  · have hkept := (h.cell .m nofun).trans (cellsAfter_counts m desc j).2.2.2
    exact byte_congr hkept (Nat.lt_of_not_le hfar)

/-- One more iteration. -/
theorem After.next (hloop : Loop size dynMap m desc)
    (hranges : Ranges size desc (read m desc.s) (read m desc.d) n)
    (hm : read m desc.m = -8) (hj : j < n) (h : After m desc j m') :
    ∃ m'', interpRun size 19 (m', desc.start) =
        some (m'', if (read m desc.c + 8 * BitVec.ofNat 64 j).sle (-8) then desc.start
          else insnAt desc.start 19) ∧
      After m desc (j + 1) m'' := by
  have hsize := size.le
  have hs := hranges.s_le
  have hd := hranges.d_le
  obtain ⟨hcs, hcd, hcc, hcm⟩ := cellsAfter_counts m desc j
  have hloop' : Loop size dynMap m' desc := hloop.congr fun a ha => by
    obtain ⟨i, hi, hnot, rfl⟩ := mem_compared_iff.mp ha
    exact h.code i hi hnot
  have hset := hranges.setting hloop' (read m desc.d + 8 * BitVec.ofNat 64 j)
    (by bv_omega) (by bv_omega)
  have hcell : ∀ x : Cell, x ≠ .dst →
      read m' (x.addr desc (read m desc.d + 8 * BitVec.ofNat 64 j)) = cellsAfter m desc j x :=
    fun x hx => by rw [x.addr_of_ne hx, h.cell x hx]
  have hat : At m' desc (read m desc.d + 8 * BitVec.ofNat 64 j) m'
      (fun x => read m' (x.addr desc (read m desc.d + 8 * BitVec.ofNat 64 j))) :=
    ⟨fun _ _ _ => rfl, fun _ => rfl, fun _ _ => rfl⟩
  have hs' := (hcell .s nofun).trans hcs
  have hd' := (hcell .d nofun).trans hcd
  obtain ⟨m'', hrun, hat'⟩ := iteration hset hat ((hcell .m nofun).trans (hcm.trans hm)) hd'
    (by
      simp only [hs']
      unfold MemSize.Holds
      bv_omega)
    (by
      intro x hx hxm
      simp only [hs']
      rw [x.addr_of_ne hx]
      exact hranges.source_apart hloop hj hx hxm)
  simp only [hs', (hcell .c nofun).trans hcc] at hrun hat'
  rw [h.source hloop hranges hj] at hat'
  refine ⟨m'', hrun, ⟨fun i hi hnot => (hat'.code i hi hnot).trans (h.code i hi hnot), ?_,
    ?_, ?_⟩⟩
  · intro x hx
    rw [← x.addr_of_ne hx (read m desc.d + 8 * BitVec.ofNat 64 j), hat'.cell, cellsAfter,
      iterated_congr hcell]
  · intro a ha
    by_cases hnew : (a - (read m desc.d + 8 * BitVec.ofNat 64 j)).toNat < 8
    · -- a byte of the word that this iteration stores
      have hstored := hat'.cell .dst
      have hbyte := byteAt_read m'' (read m desc.d + 8 * BitVec.ofNat 64 j) hnew
      have hbyte' := byteAt_read m (read m desc.s + 8 * BitVec.ofNat 64 j) hnew
      rw [show read m'' (read m desc.d + 8 * BitVec.ofNat 64 j) =
        read m (read m desc.s + 8 * BitVec.ofNat 64 j) from hstored, hbyte'] at hbyte
      convert hbyte.symm using 2 <;> bv_omega
    · rw [hat'.other, h.copied a (by bv_omega)]
      intro x
      by_cases hx : x = .dst
      · subst hx
        exact Nat.le_of_not_lt hnew
      · rw [x.addr_of_ne hx]
        exact hranges.destination_far hloop (by omega) hx
  · intro a ha hfar
    rw [hat'.other, h.other a ha (by omega)]
    intro x
    by_cases hx : x = .dst
    · subst hx
      simp only [Cell.addr]
      bv_omega
    · rw [x.addr_of_ne hx]
      exact ha x hx

/-- All iterations up to the end of the loop. -/
theorem After.run (hloop : Loop size dynMap m desc)
    (hranges : Ranges size desc (read m desc.s) (read m desc.d) n)
    (hm : read m desc.m = -8) (hj : j ≤ n) (hn : n ≤ (totalOf (read m desc.c)).toNat) :
    ∃ m', interpRun size (19 * j) (m, desc.start) =
        some (m', if j = (totalOf (read m desc.c)).toNat then insnAt desc.start 19
          else desc.start) ∧
      After m desc j m' := by
  induction j with
  | zero =>
      have htotal := (totalOf_bounds (read m desc.c)).1
      rw [if_neg (by omega)]
      exact ⟨m, rfl, .zero m desc⟩
  | succ j ih =>
      obtain ⟨m', hrun, hafter⟩ := ih (by omega)
      obtain ⟨m'', hrun', hafter'⟩ := hafter.next hloop hranges hm (by omega)
      rw [if_neg (by omega)] at hrun
      rw [counter_sle (by omega)] at hrun'
      refine ⟨m'', ?_, hafter'⟩
      have hlast : (if decide (j + 1 < (totalOf (read m desc.c)).toNat) = true
          then desc.start else insnAt desc.start 19) =
          if j + 1 = (totalOf (read m desc.c)).toNat then insnAt desc.start 19
          else desc.start := by
        simp only [decide_eq_true_eq]
        by_cases hend : j + 1 = (totalOf (read m desc.c)).toNat
        · rw [if_pos hend, if_neg (by omega)]
        · rw [if_neg hend, if_pos (by omega)]
      rw [← hlast]
      exact interpRun_trans hrun hrun'

end Iterations

end CopyLoop
end SubleqEmu
