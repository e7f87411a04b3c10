import SubleqEmu.CopyGuard
import SubleqEmu.DispatcherStores

/-!
# New blocks

A block that `translate` has just made is right about memory, and its marks leave the
other blocks and the maps as they should be.
-/

namespace SubleqEmu
namespace Dispatcher

open ByteMemory Subleq Emitter Machine
open CopyLoop
open CopyGuard
open Translator (Cache Source Marked spannedWords translateInsn translateInsns
  translateBody)

variable {cfg : Config} {s s' : Jit} {b : Block} {a p start : Word} {v : View} {desc : Desc}
  {src : Source} {J J' : Cache} {M M' : Marks} {code : List Insn} {i k n : ℕ}
  {written : Word → Bool} {setup : Setup}

/-! ## The extent of a block -/

theorem memSize_toNat (v : View) : v.memSize.toNat = v.size.val := by
  have hle := v.size.le
  unfold View.memSize
  bv_omega

/-- The pass stays in memory, and goes over the first instruction if that is there. -/
theorem extent_bounds {copy : Bool} {limit i : ℕ} {e : ℕ × (Word → Bool)}
    (h : extent v copy start limit i written = some e) (hlimit : i + limit ≤ 64)
    (hi : start.toNat + 24 * i ≤ v.size.val) :
    start.toNat + 24 * e.1 ≤ v.size.val ∧ i ≤ e.1 ∧ e.1 ≤ i + limit ∧
      (0 < limit → i = 0 → start.toNat + 24 ≤ v.size.val → 0 < e.1) := by
  induction limit generalizing i written with
  | zero =>
      cases h
      exact ⟨hi, le_rfl, le_rfl, fun h => absurd h (Nat.lt_irrefl 0)⟩
  | succ limit ih =>
      have hle := v.size.le
      have hsize := memSize_toNat v
      have haddr : (insnAt start i).toNat = start.toNat + 24 * i := by
        unfold insnAt
        bv_omega
      obtain ⟨rfl, hstop⟩ | ⟨hbound, written', -, rfl | h⟩ := extent_succ h
      · refine ⟨hi, le_rfl, Nat.le_add_right _ _, fun _ h0 hroom => absurd ?_ (hstop ?_)⟩
        · rw [h0]
          exact BitVec.add_zero start
        · bv_omega
      · exact ⟨by bv_omega, by omega, by omega, fun _ _ _ => Nat.succ_pos i⟩
      · obtain ⟨hroom, hlow, hup, -⟩ := ih h (by omega) (by bv_omega)
        exact ⟨hroom, by omega, by omega, fun _ _ _ => by omega⟩

theorem translateMarked_le (h : translateMarked src start M i k J = some ((n, M'), J', code)) :
    n ≤ i + k := by
  induction k generalizing i M J code with
  | zero =>
      cases (pure_eq_some.mp h).1
      exact le_rfl
  | succ k ih =>
      obtain ⟨ended, J₁, c₁, c₂, -, h, -⟩ := bind_eq_some.mp h
      cases ended with
      | true =>
          cases (pure_eq_some.mp h).1
          omega
      | false =>
          have hle := ih h
          omega

/-- The instructions of a block that was translated are. -/
theorem translateInsns_of_marked
    (h : translateMarked src start M i k J = some ((n, M'), J', code)) :
    ∃ m r J' code, n = i + m ∧ translateInsns src start i m J = some ((n, r), J', code) := by
  induction k generalizing i M J code with
  | zero =>
      cases (pure_eq_some.mp h).1
      exact ⟨0, false, J, [], rfl, rfl⟩
  | succ k ih =>
      obtain ⟨ended, J₁, c₁, c₂, hinsn, h, -⟩ := bind_eq_some.mp h
      cases ended with
      | true =>
          cases (pure_eq_some.mp h).1
          exact ⟨1, true, J₁, c₁ ++ [], rfl, bind_eq_some.mpr ⟨true, J₁, c₁, [], hinsn, rfl, rfl⟩⟩
      | false =>
          obtain ⟨m, r, J₂, c, hn, hinsns⟩ := ih h
          refine ⟨m + 1, r, J₂, c₁ ++ c, by omega, ?_⟩
          exact bind_eq_some.mpr ⟨false, J₁, c₁, c, hinsn, hinsns, rfl⟩

theorem translateBody_of_marked
    (h : translateMarked src start M 0 k J = some ((n, M'), J', code)) :
    (translateBody src start n J).isSome = true := by
  obtain ⟨m, r, J₁, c, hm, hinsns⟩ := translateInsns_of_marked h
  rw [Nat.zero_add] at hm
  subst hm
  unfold translateBody
  cases r with
  | true =>
      exact Option.isSome_iff_exists.mpr ⟨(n, J₁, c ++ ([] ++ [])), bind_eq_some.mpr
        ⟨_, J₁, c, _, hinsns, bind_eq_some.mpr ⟨(), J₁, [], [], rfl, rfl, rfl⟩, rfl⟩⟩
  | false =>
      obtain ⟨J₂, -, hsnap⟩ := Translator.snapPending_eq J₁
      let jump : Insn := .jmp ⟨false, n - 1, insnAt start n, none, Translator.snapOf J₁⟩
      have htail : onlyIf true (do
          let pend ← Translator.snapPending
          emit (Insn.jmp ⟨false, n - 1, insnAt start n, none, pend⟩)) J₁ =
          some ((), J₂, [jump]) :=
        bind_eq_some.mpr ⟨_, J₂, [], [jump], hsnap, rfl, rfl⟩
      exact Option.isSome_iff_exists.mpr ⟨(n, J₂, c ++ ([jump] ++ [])), bind_eq_some.mpr
        ⟨_, J₁, c, _, hinsns, bind_eq_some.mpr ⟨(), J₂, [jump], [], htail, rfl, rfl⟩, rfl⟩⟩

/-- What every mark of a static field keeps is kept. -/
theorem translateMarked_keeps {P : Marks → Prop}
    (hfield : ∀ M i f, i < n → f < 3 →
      src.dynamic (insnAt start i + 8 * BitVec.ofNat 64 f) = false → P M →
      P (M.field i (insnAt start i) f))
    (h : translateMarked src start M i k J = some ((n, M'), J', code)) (hM : P M) : P M' := by
  have hinsn : ∀ M i, i < n → P M → P (M.insn src i (insnAt start i)) := by
    intro M i hi hM
    have hone : ∀ M f, f < 3 → P M →
        P (if src.dynamic (insnAt start i + 8 * BitVec.ofNat 64 f) then M
          else M.field i (insnAt start i) f) := by
      intro M f hf hM
      split_ifs with hdyn
      · exact hM
      · exact hfield M i f hi hf (Bool.eq_false_iff.mpr hdyn) hM
    exact hone _ 2 (by decide) (hone _ 1 (by decide) (hone _ 0 (by decide) hM))
  induction k generalizing i M J code with
  | zero =>
      cases (pure_eq_some.mp h).1
      exact hM
  | succ k ih =>
      have hi : i < n := (translateMarked_marks h).1 (Nat.succ_pos k)
      obtain ⟨ended, J₁, c₁, c₂, -, h, -⟩ := bind_eq_some.mp h
      cases ended with
      | true =>
          cases (pure_eq_some.mp h).1
          exact hinsn M i hi hM
      | false => exact ih h (hinsn M i hi hM)

theorem marked_markStatic {M : Marks} (w : Word)
    (h : ∀ x, M.staticMap x = true → M.pageMap ((x <<< 3) >>> 12) = true ∧
      ((x <<< 3) >>> 12 ≠ 0 → M.pageMap ((x <<< 3) >>> 12 - 1) = true)) :
    ∀ x, (M.markStatic w).staticMap x = true →
      (M.markStatic w).pageMap ((x <<< 3) >>> 12) = true ∧
        ((x <<< 3) >>> 12 ≠ 0 → (M.markStatic w).pageMap ((x <<< 3) >>> 12 - 1) = true) := by
  intro x hx
  simp only [Marks.markStatic, Function.update_apply] at hx
  simp only [Marks.markStatic, Bool.or_eq_true, Bool.and_eq_true, decide_eq_true_eq]
  split_ifs at hx with hxw
  · subst hxw
    exact ⟨Or.inl (Or.inr rfl), fun hne => Or.inr ⟨hne, rfl⟩⟩
  · obtain ⟨hpage, hprev⟩ := h x hx
    exact ⟨Or.inl (Or.inl hpage), fun hne => Or.inl (Or.inl (hprev hne))⟩

/-! ## What is stored to -/

theorem mem_hoistList {w : Word} : w ∈ hoistList v written start n ↔
    ∃ k < n, isDynamic v written start (insnAt start k + 8) = false ∧
      w ∈ spannedWords v.size (read v.mem (insnAt start k + 8)) := by
  have hadd : ∀ words hoist : List Word, w ∈ words.foldl
      (fun hoist w => if w ∈ hoist then hoist else hoist ++ [w]) hoist ↔ w ∈ hoist ∨ w ∈ words := by
    intro words
    induction words with
    | nil => simp
    | cons x words ih =>
        intro hoist
        rw [List.foldl_cons, ih]
        split_ifs with hx
        · constructor
          · rintro (h | h)
            · exact Or.inl h
            · exact Or.inr (List.mem_cons_of_mem x h)
          · rintro (h | h)
            · exact Or.inl h
            · rcases List.mem_cons.mp h with rfl | h
              · exact Or.inl hx
              · exact Or.inr h
        · simp only [List.mem_append, List.mem_cons, List.not_mem_nil, false_or, or_assoc]
  unfold hoistList
  induction n with
  | zero => simp
  | succ n ih =>
      rw [List.range_succ, List.foldl_append, List.foldl_cons, List.foldl_nil]
      simp only
      constructor
      · intro h
        split_ifs at h with hdyn
        · obtain ⟨k, hk, hrest⟩ := ih.mp h
          exact ⟨k, by omega, hrest⟩
        · rcases (hadd _ _).mp h with h | h
          · obtain ⟨k, hk, hrest⟩ := ih.mp h
            exact ⟨k, by omega, hrest⟩
          · exact ⟨n, Nat.lt_succ_self n, Bool.eq_false_iff.mpr hdyn, h⟩
      · rintro ⟨k, hk, hdyn, hw⟩
        rcases Nat.lt_succ_iff_lt_or_eq.mp hk with hk | rfl
        · have hmem := ih.mpr ⟨k, hk, hdyn, hw⟩
          split_ifs
          · exact hmem
          · exact (hadd _ _).mpr (Or.inl hmem)
        · rw [hdyn, if_neg Bool.false_ne_true]
          exact (hadd _ _).mpr (Or.inr hw)

theorem toNat_lt_of_mem_spannedWords {size : MemSize} {b w : Word}
    (h : w ∈ spannedWords size b) : w.toNat < size.val / 8 := by
  unfold spannedWords at h
  rw [List.mem_append] at h
  rcases h with h | h
  · split_ifs at h with hif
    · rw [List.mem_singleton.mp h]
      exact hif.2
    · cases h
  · split_ifs at h with hif
    · rw [List.mem_singleton.mp h]
      exact hif.2.1
    · cases h

theorem mem_spannedWords_of_aligned {size : MemSize} (ha : a.toNat % 8 = 0)
    (hholds : size.Holds a) : a >>> 3 ∈ spannedWords size a := by
  have hle := size.le
  unfold MemSize.Holds at hholds
  unfold spannedWords
  rw [List.mem_append]
  left
  rw [if_pos (by constructor <;> bv_omega)]
  exact List.mem_singleton_self _

/-! ## The block -/

theorem translate_eq_some {T : Translation} (h : CopyGuard.translate v M J start = some T)
    (hwrap : start.toNat + 24 < 2 ^ 64) :
    (start.toNat % 8 = 0 ∧ start.toNat + 24 ≤ v.size.val) ∧
      ∃ n written, extentOf v start = some (n, written) ∧ T.src = sourceOf v start n written ∧
        (∃ J' code, translateMarked (sourceOf v start n written) start
          { M with smask := fun _ => false } 0 n J = some ((T.n, T.marks), J', code)) ∧
        ∀ desc, T.copy = some desc →
          matchCopy v.size v.dynMap v.mem start = some desc ∧ n = 19 := by
  have hle := v.size.le
  have hsize := memSize_toNat v
  unfold CopyGuard.translate at h
  split_ifs at h with hbounds
  obtain ⟨hbits, hroom⟩ := not_or.mp hbounds
  have haligned : start.toNat % 8 = 0 := by
    rw [← toNat_and_seven, not_not.mp hbits]
    rfl
  obtain ⟨⟨n, written⟩, hextent, h⟩ := Option.bind_eq_some_iff.mp h
  obtain ⟨⟨⟨m, M'⟩, J', code⟩, hmarked, rfl⟩ := Option.map_eq_some_iff.mp h
  refine ⟨⟨haligned, by bv_omega⟩, n, written, hextent, rfl, ⟨J', code, hmarked⟩,
    fun desc hcopy => ?_⟩
  dsimp only at hcopy
  obtain ⟨hn, hcopy⟩ := Option.ite_none_right_eq_some.mp hcopy
  exact ⟨hcopy, hn⟩

theorem mem_hoist_sourceOf {w : Word} : w ∈ (sourceOf v start n written).hoist ↔
    ∃ k < n, isDynamic v written start (insnAt start k + 8) = false ∧
      w ∈ spannedWords v.size (read v.mem (insnAt start k + 8)) :=
  mem_hoistList

/-- The B fields of a loop with the words that it stores to, but for those of its copies. -/
theorem exists_fieldB (h : Loop v.size v.dynMap v.mem desc) {a : Word}
    (ha : a ∈ storedWords desc) : ∃ k < 19, insnAt desc.start k + 8 ∈ compared desc.start ∧
      read v.mem (insnAt desc.start k + 8) = a := by
  have hrow : ∀ k < 19, ∀ row : Symbol × Symbol, copyTmpl[k]? = some row → row.2 ≠ .any →
      insnAt desc.start k + 8 ∈ compared desc.start := by
    intro k hk row hrow hany
    unfold compared
    exact List.mem_flatMap.mpr ⟨(row, k), List.mem_zipIdx_iff_getElem?.mpr hrow, by simp [hany]⟩
  have hfield : ∀ k < 19, ∀ x y : Symbol, copyTmpl[k]? = some (x, y) → y ≠ .any → y ≠ .sd →
      desc.addr y = a → ∃ k < 19, insnAt desc.start k + 8 ∈ compared desc.start ∧
        read v.mem (insnAt desc.start k + 8) = a := fun k hk x y hget hany hsd heq =>
    ⟨k, hk, hrow k hk _ hget hany, (h.fieldB k x y hget hany hsd).trans heq⟩
  have hsd : ∀ k < 19, copyTmpl[k]? = some (Symbol.m, Symbol.sd) →
      read v.mem (insnAt desc.start k + 8) = a →
      ∃ k < 19, insnAt desc.start k + 8 ∈ compared desc.start ∧
        read v.mem (insnAt desc.start k + 8) = a := fun k hk hget heq =>
    ⟨k, hk, hrow k hk _ hget (by decide), heq⟩
  simp only [storedWords, List.mem_cons, List.not_mem_nil, or_false] at ha
  rcases ha with rfl | rfl | rfl | rfl | rfl | rfl | rfl | rfl | rfl
  · exact hfield 0 (by decide) _ _ rfl (by decide) (by decide) rfl
  · exact hfield 1 (by decide) _ _ rfl (by decide) (by decide) rfl
  · rcases h.fieldsSd with ⟨h16, -⟩ | ⟨-, h17⟩
    · exact hsd 16 (by decide) rfl h16
    · exact hsd 17 (by decide) rfl h17
  · rcases h.fieldsSd with ⟨-, h17⟩ | ⟨h16, -⟩
    · exact hsd 17 (by decide) rfl h17
    · exact hsd 16 (by decide) rfl h16
  · exact hfield 18 (by decide) _ _ rfl (by decide) (by decide) rfl
  · exact hfield 2 (by decide) _ _ rfl (by decide) (by decide) rfl
  · exact hfield 8 (by decide) _ _ rfl (by decide) (by decide) rfl
  · exact hfield 9 (by decide) _ _ rfl (by decide) (by decide) rfl
  · exact hfield 7 (by decide) _ _ rfl (by decide) (by decide) rfl

theorem storedWords_aligned {size : MemSize} {dynMap : Word → Bool} {mem : Memory}
    (h : Loop size dynMap mem desc) (haligned : desc.start.toNat % 8 = 0) {a : Word}
    (ha : a ∈ storedWords desc) : a.toNat % 8 = 0 := by
  have hle := size.le
  have hstart := h.start_le
  have hvar := fun x hx => (h.var x hx).1
  simp only [storedWords, List.mem_cons, List.not_mem_nil, or_false] at ha
  rcases ha with rfl | rfl | rfl | rfl | rfl | rfl | rfl | rfl | rfl
  · exact hvar _ (by simp)
  · exact hvar _ (by simp)
  · exact hvar _ (by simp)
  · exact hvar _ (by simp)
  · exact hvar _ (by simp)
  all_goals bv_omega

theorem extentOf_loop (h : matchCopy v.size v.dynMap v.mem start = some desc)
    (hextent : extentOf v start = some (n, written)) :
    n = 19 ∧ ∀ w, written w = true ↔ WrittenFrom v start 0 w := by
  obtain ⟨hloop, rfl⟩ := matchCopy_eq_some h
  unfold extentOf at hextent
  simp only [h, Option.isSome_some, if_true] at hextent
  obtain ⟨h19, hwritten⟩ := extent_loop hloop (Nat.zero_add 19) hextent
  refine ⟨h19, fun w => (hwritten w).trans ?_⟩
  simp

theorem extentOf_bounds (h : start.toNat + 24 ≤ v.size.val)
    (hextent : extentOf v start = some (n, written)) :
    0 < n ∧ n ≤ jitMaxBlock ∧ start.toNat + 24 * n ≤ v.size.val := by
  unfold extentOf at hextent
  unfold jitMaxBlock at hextent ⊢
  extract_lets desc at hextent
  obtain ⟨limit, hlimit, h64, hpos⟩ : ∃ limit, (if desc.isSome then 19 else 64) = limit ∧
      limit ≤ 64 ∧ 0 < limit := by
    refine ⟨_, rfl, ?_, ?_⟩ <;> split_ifs <;> decide
  rw [hlimit] at hextent
  obtain ⟨hroom, -, hup, hfirst⟩ := extent_bounds hextent (by omega) (by omega)
  exact ⟨hfirst hpos rfl h, by omega, hroom⟩

/-- A block with a call of `jit_copy`, where the leftovers leave the loop alone. -/
theorem isLoop_of_translate {T : Translation}
    (h : CopyGuard.translate v M J start = some T) (hwrap : start.toNat + 24 < 2 ^ 64)
    (hleft : matchCopy v.size v.dynMap v.mem start = some desc → LeftoversApart v start)
    (hcopy : T.copy = some desc) (watch : Option (Word × Word)) :
    Block.IsLoop v.size ⟨start, T.n, T.src, T.copy, watch, setup⟩ desc := by
  obtain ⟨⟨haligned, -⟩, n, written, hextent, hsrc, ⟨J', code, hmarked⟩, hfound⟩ :=
    translate_eq_some h hwrap
  obtain ⟨hmatch, rfl⟩ := hfound desc hcopy
  obtain ⟨-, hwritten⟩ := extentOf_loop hmatch hextent
  have hapart := hleft hmatch
  obtain ⟨hloop, rfl⟩ := matchCopy_eq_some hmatch
  rw [hsrc]
  have hstatic : ∀ a ∈ compared desc.start, isDynamic v written desc.start a = false := by
    intro a ha
    rw [Bool.eq_false_iff, Ne, exists_isDynamic_iff hloop haligned hwritten ha]
    rintro ⟨k, hk, hdyn, hmem⟩
    rcases hapart k hk with hdyn' | hnone
    · rw [hdyn] at hdyn'
      cases hdyn'
    · exact hnone a ha hmem
  constructor
  · have hn : T.n = 0 + 19 := by
      refine translateMarked_all (fun l _ hl => ⟨hstatic _ (compared_c (by omega)), ?_⟩) hmarked
      have hnext := hloop.next l (by omega)
      rwa [nextOf, if_neg (by omega)] at hnext
    exact hn.trans (Nat.zero_add 19)
  · rfl
  · exact ⟨v.dynMap, v.mem, hloop, rfl⟩
  · exact hstatic
  · intro a ha hholds
    obtain ⟨k, hk, hmem, hread⟩ := exists_fieldB hloop ha
    refine mem_hoist_sourceOf.mpr ⟨k, hk, hstatic _ hmem, ?_⟩
    rw [hread]
    exact mem_spannedWords_of_aligned (storedWords_aligned hloop haligned ha) hholds

/-- A static field of the block, and its word. -/
theorem Block.Made.field_word (h : b.Made cfg.size) (hi : i < b.n) (ha : a ∈ b.fields i) :
    ∃ f < 3, a = insnAt b.start i + 8 * BitVec.ofNat 64 f ∧
      a >>> 3 = insnAt b.start i >>> 3 + BitVec.ofNat 64 f := by
  have haddr := h.toNat_insnAt hi
  have haligned := h.aligned
  have hbounds := h.bounds
  have hle := cfg.size.le
  simp only [Block.fields, List.mem_cons, List.not_mem_nil, or_false] at ha
  rcases ha with rfl | rfl | rfl
  · exact ⟨0, by decide, by bv_omega, by bv_omega⟩
  · exact ⟨1, by decide, by bv_omega, by bv_omega⟩
  · exact ⟨2, by decide, by bv_omega, by bv_omega⟩

structure New (cfg : Config) (s : Jit) (a : Word) (b : Block) (s' : Jit) : Prop where
  mem : s'.mem = s.mem
  eip : s'.eip = s.eip
  budget : s'.budget = s.budget
  dyn : s'.dynMap = s.dynMap
  start : b.start = a
  block : b ∈ s'.table
  inv : s'.Inv cfg

theorem translate_spec (hinv : s.Inv cfg) (hnew : s.lookup a = none)
    (hwrap : a.toNat + 24 < 2 ^ 64)
    (hleft : ∀ desc, matchCopy cfg.size s.dynMap s.mem a = some desc →
      LeftoversApart (s.view cfg) a)
    (h : s.translate cfg setup a = some (b, s')) : New cfg s a b s' := by
  obtain ⟨T, hT, heq⟩ := Option.map_eq_some_iff.mp h
  obtain ⟨rfl, rfl⟩ := Prod.mk.inj heq
  obtain ⟨⟨haligned, hroom⟩, n, written, hextent, hsource, ⟨J', code, hmarked⟩, -⟩ :=
    translate_eq_some hT hwrap
  have hloop : ∀ desc, T.copy = some desc →
      Block.IsLoop cfg.size ⟨a, T.n, T.src, T.copy, s.watch, setup⟩ desc := fun desc hcopy =>
    isLoop_of_translate hT hwrap (hleft desc) hcopy s.watch
  obtain ⟨copy, m, marks, src⟩ := T
  dsimp only at hsource hmarked
  subst hsource
  obtain ⟨hpos, hle, hbounds⟩ := extentOf_bounds hroom hextent
  obtain ⟨hfirst, hmarks⟩ := translateMarked_marks hmarked
  have hn := translateMarked_le hmarked
  rw [Nat.zero_add] at hn
  generalize hb :
    (⟨a, m, sourceOf (s.view cfg) a n written, copy, s.watch, setup⟩ : Block) = b
  have hmade : b.Made cfg.size := by
    subst hb
    refine ⟨haligned, hfirst hpos, hn.trans hle, ?_, rfl, fun w hw => ?_, hloop,
      translateBody_of_marked hmarked⟩
    · exact le_trans (by simp only; omega) hbounds
    · obtain ⟨_, _, _, hspanned⟩ := mem_hoist_sourceOf.mp hw
      exact toNat_lt_of_mem_spannedWords hspanned
  have hdyn : ∀ i < b.n, ∀ q ∈ b.fields i, b.src.dynamic q = false →
      s.dynMap (q >>> 3) = false := by
    intro i hi q hq hstat
    subst hb
    exact (Bool.or_eq_false_iff.mp hstat).1
  have hstart : b.start = a := hb ▸ rfl
  have hsrc : b.src = sourceOf (s.view cfg) a n written := hb ▸ rfl
  have hbn : b.n = m := hb ▸ rfl
  refine ⟨rfl, rfl, rfl, rfl, hstart, List.mem_cons_self, ?_, ?_, ?_, ?_, ?_⟩
  · intro b' hb'
    rcases List.mem_cons.mp hb' with rfl | hb'
    · refine ⟨hmade, fun i hi q hq hstat => ?_, fun i hi q hq hstat => ?_⟩
      · rw [hsrc]
        rfl
      · obtain ⟨f, hf, rfl, hword⟩ := hmade.field_word hi hq
        refine hmarks.staticMap _ (Or.inr ⟨i, f, Nat.zero_le i, hbn ▸ hi, hf, ?_, ?_⟩)
        · rw [hword, hstart]
        · rw [hsrc, hstart] at hstat
          exact hstat
    · have hvalid := hinv.blocks b' hb'
      exact ⟨hvalid.toMade, hvalid.baked, fun i hi q hq hstat =>
        hmarks.staticMap _ (Or.inl (hvalid.marked i hi q hq hstat))⟩
  · refine List.pairwise_cons.mpr ⟨fun b' hb' heq => ?_, hinv.unique⟩
    exact lookup_eq_none.mp hnew b' hb' (heq.symm.trans hstart)
  · rw [marked_iff]
    refine translateMarked_keeps (P := fun M => ∀ x, M.staticMap x = true →
      M.pageMap ((x <<< 3) >>> 12) = true ∧ ((x <<< 3) >>> 12 ≠ 0 →
        M.pageMap ((x <<< 3) >>> 12 - 1) = true)) ?_ hmarked (marked_iff.mp hinv.pages)
    exact fun M i f _ _ _ hM => marked_markStatic _ hM
  · refine translateMarked_keeps (P := fun M => ∀ x, M.staticMap x = true →
      s.dynMap x = false) ?_ hmarked hinv.disjoint
    intro M i f hi hf hstat hM x hx
    simp only [Marks.field, Marks.markStatic, Function.update_apply] at hx
    split_ifs at hx with hxw
    · have hq : insnAt b.start i + 8 * BitVec.ofNat 64 f ∈ b.fields i := by
        unfold Block.fields
        interval_cases f <;> simp
      obtain ⟨f', hf', hadd, hword⟩ := hmade.field_word (hbn ▸ hi) hq
      have hclear := hdyn i (hbn ▸ hi) _ hq (by rw [hsrc, hstart]; exact hstat)
      rw [hxw, ← hstart]
      have hff : BitVec.ofNat 64 f' = BitVec.ofNat 64 f := by bv_omega
      rwa [hword, hff] at hclear
    · exact hM x hx
  · intro l hl
    obtain ⟨t, ht, htarget⟩ := hinv.links l hl
    exact ⟨t, List.mem_cons_of_mem _ ht, htarget⟩

end Dispatcher
end SubleqEmu
