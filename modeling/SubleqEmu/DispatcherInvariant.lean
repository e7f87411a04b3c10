import SubleqEmu.DispatcherModel

/-!
# What the dispatcher keeps

The blocks in the table are right about memory and marked, and dropping the blocks over
a word, as each hit does, leaves the others so.
-/

namespace SubleqEmu
namespace Dispatcher

open ByteMemory Subleq Emitter Machine
open CopyLoop (Desc Loop compared insnAt)
open CopyGuard (jitMaxBlock)
open Translator (Marked Baked translateBody)

variable {cfg : Config} {size : MemSize} {s s' : Jit} {b b' t : Block} {a w x : Word}

/-! ## Maps -/

theorem static_maps (s : Jit) (w : Word) : s.maps.static w = s.staticMap w := by
  have hlt : w.toNat % 64 < 64 := Nat.mod_lt _ (by decide)
  have hback : (w >>> 6) <<< 6 + BitVec.ofNat 64 (w.toNat % 64) = w := by bv_omega
  unfold Maps.static Jit.maps
  have hbit := BitVec.iunfoldr_getLsbD (f := fun (i : Fin 64) (u : Unit) =>
    (u, s.staticMap ((w >>> 6) <<< 6 + BitVec.ofNat 64 i.val))) (fun _ => ())
    ⟨w.toNat % 64, hlt⟩ (fun _ => rfl)
  exact hbit.trans (congrArg s.staticMap hback)

/-! ## Valid blocks -/

/-- The words that a copy loop stores to, but for what it copies. -/
def storedWords (desc : Desc) : List Word :=
  [desc.t1, desc.t2, desc.s, desc.d, desc.c, desc.start + 5 * 24, desc.start + 14 * 24,
    desc.start + 14 * 24 + 8, desc.start + 15 * 24 + 8]

/-- The block is a copy loop, all of it static that was compared. -/
structure Block.IsLoop (size : MemSize) (b : Block) (desc : Desc) : Prop where
  n : b.n = 19
  start : desc.start = b.start
  loop : ∃ dynMap mem, Loop size dynMap mem desc ∧ b.src.raw = read mem
  static : ∀ a ∈ compared b.start, b.src.dynamic a = false
  hoist : ∀ a ∈ storedWords desc, size.Holds a → a >>> 3 ∈ b.src.hoist

/-- What holds of a block whatever happens to memory. -/
structure Block.Made (size : MemSize) (b : Block) : Prop where
  aligned : b.start.toNat % 8 = 0
  pos : 0 < b.n
  le : b.n ≤ jitMaxBlock
  bounds : b.start.toNat + 24 * b.n ≤ size.val
  src_size : b.src.size = size
  hoist : ∀ w ∈ b.src.hoist, w.toNat < size.val / 8
  loop : ∀ desc, b.copy = some desc → b.IsLoop size desc
  body : (translateBody b.src b.start b.n b.setup.cache).isSome = true

def Block.fields (b : Block) (i : ℕ) : List Word :=
  [insnAt b.start i, insnAt b.start i + 8, insnAt b.start i + 16]

/-- Its static fields hold what it was made from, and are marked. -/
structure Block.Valid (size : MemSize) (s : Jit) (b : Block) : Prop extends b.Made size where
  baked : ∀ i < b.n, Baked b.src s.mem (insnAt b.start i)
  marked : ∀ i < b.n, ∀ q ∈ b.fields i, b.src.dynamic q = false → s.staticMap (q >>> 3) = true

def Jit.LinksLive (s : Jit) : Prop :=
  ∀ l ∈ s.links, ∃ t ∈ s.table, t.start = l.2.target l.1

structure Jit.Inv (cfg : Config) (s : Jit) : Prop where
  blocks : ∀ b ∈ s.table, b.Valid cfg.size s
  unique : s.table.Pairwise fun b b' => b.start ≠ b'.start
  pages : Marked s.maps
  disjoint : ∀ w, s.staticMap w = true → s.dynMap w = false
  links : s.LinksLive

theorem Block.Made.toNat_insnAt (h : b.Made size) {i : ℕ} (hi : i < b.n) :
    (insnAt b.start i).toNat = b.start.toNat + 24 * i := by
  have hle := size.le
  have hbounds := h.bounds
  unfold insnAt
  bv_omega

theorem Block.Made.size_toNat (h : b.Made size) : b.size.toNat = b.n := by
  have hle := h.le
  unfold jitMaxBlock at hle
  unfold Block.size
  bv_omega

/-- A field is an aligned word of memory inside the block. -/
theorem Block.Made.field (h : b.Made size) {i : ℕ} (hi : i < b.n) (ha : a ∈ b.fields i) :
    a.toNat % 8 = 0 ∧ b.start.toNat ≤ a.toNat ∧ a.toNat < b.start.toNat + 24 * b.n ∧
      size.Holds a := by
  have haddr := h.toNat_insnAt hi
  have haligned := h.aligned
  have hbounds := h.bounds
  have hle := size.le
  unfold Block.fields at ha
  simp only [List.mem_cons, List.not_mem_nil, or_false] at ha
  unfold MemSize.Holds
  rcases ha with rfl | rfl | rfl <;> bv_omega

/-! ## The table -/

theorem lookup_eq_some (h : s.lookup a = some b) : b ∈ s.table ∧ b.start = a := by
  unfold Jit.lookup at h
  have hstart := List.find?_some h
  exact ⟨List.mem_of_find?_eq_some h, of_decide_eq_true hstart⟩

theorem lookup_eq_none : s.lookup a = none ↔ ∀ b ∈ s.table, b.start ≠ a := by
  unfold Jit.lookup
  simp

/-- Blocks that start at the same place are the same one. -/
theorem lookup_of_mem (h : s.table.Pairwise fun b b' => b.start ≠ b'.start) (hb : b ∈ s.table) :
    s.lookup b.start = some b := by
  unfold Jit.lookup
  generalize s.table = table at h hb
  induction table with
  | nil => cases hb
  | cons t table ih =>
      obtain ⟨ht, htable⟩ := List.pairwise_cons.mp h
      rcases List.mem_cons.mp hb with rfl | hb
      · rw [List.find?_cons_of_pos (by simp)]
      · rw [List.find?_cons_of_neg (by simpa using ht b hb)]
        exact ih htable hb

/-! ## Dropping blocks -/

/-- Nothing changes but that blocks may be gone, and the jumps that went to them. -/
structure Dropped (s s' : Jit) : Prop where
  eq : s' = { s with table := s'.table, links := s'.links }
  table : s'.table.Sublist s.table
  links : s.LinksLive → s'.LinksLive

theorem Dropped.refl (s : Jit) : Dropped s s := ⟨rfl, .refl _, id⟩

theorem Dropped.trans {s₁ s₂ s₃ : Jit} (h : Dropped s₁ s₂) (h' : Dropped s₂ s₃) :
    Dropped s₁ s₃ where
  eq := by
    rw [h'.eq, h.eq]
  table := h'.table.trans h.table
  links hl := h'.links (h.links hl)

theorem Dropped.invalidate (s : Jit) (b : Block) : Dropped s (s.invalidate b) where
  eq := rfl
  table := List.filter_sublist
  links h := by
    intro l hl
    obtain ⟨hmem, hkeep⟩ := List.mem_filter.mp hl
    obtain ⟨-, htarget⟩ := of_decide_eq_true hkeep
    obtain ⟨t, ht, hstart⟩ := h l hmem
    refine ⟨t, List.mem_filter.mpr ⟨ht, ?_⟩, hstart⟩
    rw [hstart]
    exact decide_eq_true htarget

theorem Dropped.invalidateAt (s : Jit) (a x : Word) : Dropped s (s.invalidateAt a x) := by
  unfold Jit.invalidateAt
  cases s.lookup x with
  | none => exact .refl s
  | some b =>
      simp only
      split_ifs
      · exact .invalidate s b
      · exact .refl s

theorem not_lt_of_invalidateAt (hunique : s.table.Pairwise fun b b' => b.start ≠ b'.start)
    (hb : b ∈ (s.invalidateAt a b.start).table) : ¬ a < b.start + 24 * b.size := by
  have hlookup := lookup_of_mem hunique ((Dropped.invalidateAt s a b.start).table.subset hb)
  unfold Jit.invalidateAt at hb
  rw [hlookup] at hb
  intro hlt
  simp only [hlt, if_true] at hb
  exact of_decide_eq_true (List.mem_filter.mp hb).2 rfl

/-- No block that starts where the loop looks has the word. -/
theorem invalidateFrom_spec (a : Word) (count : ℕ) (x : Word) (s : Jit) :
    Dropped s (Jit.invalidateFrom a count x s) ∧
      (s.table.Pairwise (fun b b' => b.start ≠ b'.start) → ∀ k < count,
        ∀ b ∈ (Jit.invalidateFrom a count x s).table, b.start = x + 8 * BitVec.ofNat 64 k →
          ¬ a < b.start + 24 * b.size) := by
  induction count generalizing x s with
  | zero => exact ⟨.refl s, fun _ k hk => absurd hk (Nat.not_lt_zero k)⟩
  | succ count ih =>
      have hdropped := Dropped.invalidateAt s a x
      obtain ⟨hrest, hgone⟩ := ih (x + 8) (s.invalidateAt a x)
      refine ⟨hdropped.trans hrest, fun hunique k hk b hb hstart => ?_⟩
      cases k with
      | succ k =>
          refine hgone (hunique.sublist hdropped.table) k (by omega) b hb ?_
          rw [hstart]
          bv_omega
      | zero =>
          obtain rfl : b.start = x := by
            rw [hstart]
            bv_omega
          exact not_lt_of_invalidateAt hunique (hrest.table.subset hb)

theorem Dropped.invalidateWord (s : Jit) (w : Word) : Dropped s (s.invalidateWord w) := by
  unfold Jit.invalidateWord
  extract_lets a lo
  exact (invalidateFrom_spec a _ lo s).1

/-- No block with the word is left. -/
theorem ne_of_invalidateWord (hunique : s.table.Pairwise fun b b' => b.start ≠ b'.start)
    (hb : b ∈ (s.invalidateWord w).table) (h : b.Made size) {i : ℕ} (hi : i < b.n)
    (ha : a ∈ b.fields i) : a >>> 3 ≠ w := by
  rintro rfl
  obtain ⟨haligned, hlow, hhigh, hholds⟩ := h.field hi ha
  have hword : (a >>> 3) <<< 3 = a := by bv_omega
  have hstart := h.aligned
  have hn := h.le
  have hsize := h.size_toNat
  have hbounds := h.bounds
  have hmem := size.le
  unfold jitMaxBlock at hn
  unfold Jit.invalidateWord jitMaxBlock at hb
  simp only [hword] at hb
  generalize hlo : (if a ≥ 24 * BitVec.ofNat 64 64 then a - 24 * BitVec.ofNat 64 64 + 8
    else 0) = lo at hb
  obtain ⟨k, hk, hkstart⟩ :
      ∃ k < (a - lo).toNat / 8 + 1, b.start = lo + 8 * BitVec.ofNat 64 k := by
    refine ⟨(b.start - lo).toNat / 8, ?_, ?_⟩ <;> split_ifs at hlo <;> bv_omega
  refine (invalidateFrom_spec a _ lo s).2 hunique k hk b hb hkstart ?_
  bv_omega

/-! ## Hits -/

/-- What hits leave alone, and which way the table and the maps go. -/
structure Frame (s s' : Jit) : Prop where
  mem : s'.mem = s.mem
  eip : s'.eip = s.eip
  budget : s'.budget = s.budget
  table : s'.table.Sublist s.table
  dyn : ∀ w, s.dynMap w = true → s'.dynMap w = true
  static : ∀ w, s'.staticMap w = true → s.staticMap w = true
  watch : s'.watch = s.watch

structure Hits (cfg : Config) (s s' : Jit) : Prop extends Frame s s' where
  inv : s.Inv cfg → s'.Inv cfg

theorem Hits.refl (s : Jit) : Hits cfg s s :=
  ⟨⟨rfl, rfl, rfl, .refl _, fun _ => id, fun _ => id, rfl⟩, id⟩

theorem Hits.trans {s₁ s₂ s₃ : Jit} (h : Hits cfg s₁ s₂) (h' : Hits cfg s₂ s₃) :
    Hits cfg s₁ s₃ where
  mem := h'.mem.trans h.mem
  eip := h'.eip.trans h.eip
  budget := h'.budget.trans h.budget
  table := h'.table.trans h.table
  dyn w hw := h'.dyn w (h.dyn w hw)
  static w hw := h.static w (h'.static w hw)
  watch := h'.watch.trans h.watch
  inv hs := h'.inv (h.inv hs)

theorem Hits.foldl {α : Type} {f : Jit → α → Jit} (h : ∀ s x, Hits cfg s (f s x)) (l : List α)
    (s : Jit) : Hits cfg s (l.foldl f s) := by
  induction l generalizing s with
  | nil => exact .refl s
  | cons x l ih => exact (h s x).trans (ih (f s x))

theorem marked_iff : Marked s.maps ↔ ∀ w, s.staticMap w = true →
    s.pageMap ((w <<< 3) >>> 12) = true ∧
      ((w <<< 3) >>> 12 ≠ 0 → s.pageMap ((w <<< 3) >>> 12 - 1) = true) := by
  unfold Translator.Marked
  simp only [static_maps]
  rfl

theorem Hits.smcHit (s : Jit) (w : Word) : Hits cfg s (s.smcHit w) := by
  unfold Jit.smcHit
  generalize hs₁ : ({ s with dynMap := _, staticMap := _ } : Jit) = s₁
  have hstatic : s₁.staticMap = Function.update s.staticMap w false := hs₁ ▸ rfl
  have hdyn : s₁.dynMap = Function.update s.dynMap w true := hs₁ ▸ rfl
  have htable : s₁.table = s.table := hs₁ ▸ rfl
  have hgone : ∀ b ∈ (s₁.invalidateWord w).table, s.Inv cfg → ∀ i < b.n, ∀ q ∈ b.fields i,
      q >>> 3 ≠ w := by
    intro b hb hinv i hi q hq
    have hmem := (Dropped.invalidateWord s₁ w).table.subset hb
    rw [htable] at hmem
    exact ne_of_invalidateWord (htable ▸ hinv.unique) hb (hinv.blocks b hmem).toMade hi hq
  have heq := (Dropped.invalidateWord s₁ w).eq
  have hsub := (Dropped.invalidateWord s₁ w).table
  have hlinks := (Dropped.invalidateWord s₁ w).links
  generalize s₁.invalidateWord w = s' at heq hsub hlinks hgone
  have hmem : s'.mem = s.mem := by rw [heq, ← hs₁]
  have hstatic' : s'.staticMap = Function.update s.staticMap w false := by rw [heq, ← hstatic]
  have hdyn' : s'.dynMap = Function.update s.dynMap w true := by rw [heq, ← hdyn]
  rw [htable] at hsub
  have hclear : ∀ x, s'.staticMap x = true → x ≠ w ∧ s.staticMap x = true := by
    intro x hx
    rw [hstatic', Function.update_apply] at hx
    split_ifs at hx with hne
    exact ⟨hne, hx⟩
  refine ⟨⟨hmem, by rw [heq, ← hs₁], by rw [heq, ← hs₁], hsub, fun x hx => ?_,
    fun x hx => (hclear x hx).2, by rw [heq, ← hs₁]⟩, fun hinv => ?_⟩
  · rw [hdyn', Function.update_apply, hx, ite_self]
  constructor
  · intro b hb
    have hvalid := hinv.blocks b (hsub.subset hb)
    refine ⟨hvalid.toMade, ?_, fun i hi q hq hstat => ?_⟩
    · rw [hmem]
      exact hvalid.baked
    · rw [hstatic', Function.update_of_ne (hgone b hb hinv i hi q hq)]
      exact hvalid.marked i hi q hq hstat
  · exact hinv.unique.sublist hsub
  · have hpage : s'.pageMap = s.pageMap := by rw [heq, ← hs₁]
    rw [marked_iff, hpage]
    exact fun x hx => marked_iff.mp hinv.pages x (hclear x hx).2
  · intro x hx
    rw [hdyn', Function.update_of_ne (hclear x hx).1]
    exact hinv.disjoint x (hclear x hx).2
  · apply hlinks
    have hlive := hinv.links
    unfold Jit.LinksLive at hlive ⊢
    rwa [← hs₁]

theorem dynMap_smcHit (s : Jit) (w : Word) : (s.smcHit w).dynMap w = true := by
  unfold Jit.smcHit
  rw [(Dropped.invalidateWord _ w).eq]
  exact Function.update_self ..

theorem staticMap_smcHit (s : Jit) (w : Word) : (s.smcHit w).staticMap w = false := by
  unfold Jit.smcHit
  rw [(Dropped.invalidateWord _ w).eq]
  exact Function.update_self ..

theorem Hits.flush (s : Jit) : Hits cfg s s.flush := by
  refine ⟨⟨rfl, rfl, rfl, List.nil_sublist _, fun _ => id, fun _ => id, rfl⟩, fun hinv => ?_⟩
  exact ⟨fun _ hb => absurd hb List.not_mem_nil, .nil, hinv.pages, hinv.disjoint,
    fun _ hl => absurd hl List.not_mem_nil⟩

theorem Hits.hitStatic (s : Jit) (words : List Word) : Hits cfg s (s.hitStatic words) := by
  apply Hits.foldl
  intro s w
  split_ifs
  · exact .smcHit s w
  · exact .refl s

theorem Hits.revalidateAt (s : Jit) (a : Word) : Hits cfg s (s.revalidateAt a) := by
  unfold Jit.revalidateAt
  cases s.lookup a with
  | none => exact .refl s
  | some b =>
      simp only
      split_ifs
      · exact .refl s
      · exact .foldl Hits.smcHit _ s

end Dispatcher
end SubleqEmu
