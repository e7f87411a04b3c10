import SubleqEmu.BlockTableRuns

/-!
# The structure of a block table

Whatever `jit_run` has done, the hash chains, the records and the jumps in the code
agree, and dropping the blocks over a word drops those alone.
-/

namespace SubleqEmu
namespace BlockTable

open IntrusiveList

variable {sizes : Sizes} {J : Jit} {chain : ℕ → List ℕ} {L : Links} {b : ℕ} {s : State}
  {blocks : ℕ → Block} {links : ℕ → Link} {code : ℕ → BitVec 8} {events : List Event}

/-- Each record made is on the free list or on one incoming list. -/
structure Jit.OneList (J : Jit) (free : List ℕ) (incoming : ℕ → List ℕ) : Prop where
  mem_iff : ∀ l, l < J.nlinks ↔ l ∈ free ∨ ∃ b < J.nblocks, l ∈ incoming b
  not_free : ∀ b < J.nblocks, ∀ l ∈ incoming b, l ∉ free
  unique : ∀ b < J.nblocks, ∀ b' < J.nblocks, ∀ l, l ∈ incoming b → l ∈ incoming b' → b = b'

/-- The sites of the records jump to the blocks, and the other exits to their slow paths. -/
structure Jit.JumpsRight (J : Jit) (incoming : ℕ → List ℕ) : Prop where
  nodup : ∀ b < J.nblocks, ((incoming b).map fun l => (J.links l).site).Nodup
  linked : ∀ b < J.nblocks, ∀ l ∈ incoming b, (J.links l).site ∈ J.exits ∧
    jumpTarget J.code (J.links l).site = (J.blocks b).entry
  slow : ∀ s ∈ J.exits, (∀ b < J.nblocks, ∀ l ∈ incoming b, (J.links l).site ≠ s) →
    jumpTarget J.code s = s + 4

/-- Nothing goes on in the code of a block that was just dropped. -/
structure Jit.Severed (J : Jit) (b : ℕ) : Prop where
  exits : ∀ s ∈ J.exits, jumpTarget J.code s ≠ (J.blocks b).entry
  jump : J.code (J.blocks b).entry = 0xe9
  target : jumpTarget J.code ((J.blocks b).entry + 1) = (J.blocks b).invStub

theorem Jit.Recorded.oneList (h : J.Recorded sizes L) : J.OneList L.free L.incoming := by
  constructor
  · intro l
    rw [h.mem_free]
    constructor
    · intro hl
      cases howner : L.owner l with
      | none => exact Or.inl ⟨hl, rfl⟩
      | some b =>
          have hb := h.owner_lt l hl b howner
          exact Or.inr ⟨b, hb, (h.mem_incoming b hb l).mpr ⟨hl, howner⟩⟩
    · rintro (⟨hl, -⟩ | ⟨b, hb, hmem⟩)
      · exact hl
      · exact ((h.mem_incoming b hb l).mp hmem).1
  · intro b hb l hl hfree
    have howner := ((h.mem_incoming b hb l).mp hl).2
    rw [((h.mem_free l).mp hfree).2] at howner
    exact absurd howner nofun
  · intro b hb b' hb' l hl hl'
    have howner := ((h.mem_incoming b hb l).mp hl).2
    rw [((h.mem_incoming b' hb' l).mp hl').2] at howner
    exact (Option.some.inj howner).symm

theorem Jit.Inv.jumpsRight (h : J.Inv sizes chain L) : J.JumpsRight L.incoming := by
  refine ⟨fun b hb => ?_, fun b hb l hl => ?_, fun s hs hnot => ?_⟩
  · apply (h.recorded.incoming b hb).nodup.map_on
    intro l hl l' hl' hsite
    obtain ⟨hlt, howner⟩ := h.linked_lt hb hl
    obtain ⟨hlt', howner'⟩ := h.linked_lt hb hl'
    exact h.patched.site_inj l hlt l' hlt' (by simp [howner]) (by simp [howner']) hsite
  · obtain ⟨hlt, howner⟩ := h.linked_lt hb hl
    exact ⟨h.site_mem hb hl, h.patched.linked l hlt b howner⟩
  · apply h.patched.slow s hs
    intro l hl howner
    obtain ⟨b, hb⟩ := Option.ne_none_iff_exists'.mp howner
    have hlt := h.recorded.owner_lt l hl b hb
    exact hnot b hlt l ((h.recorded.mem_incoming b hlt l).mpr ⟨hl, hb⟩)

theorem Jit.Inv.severed (h : J.Inv sizes chain L) (hb : J.Live b) :
    (J.invalidate sizes b).Severed b := by
  have hdrops := h.chained.drops h.recorded hb
  have hinv := hdrops.inv h hb
  have hlt : b < (J.invalidate sizes b).nblocks := hdrops.nblocks.symm ▸ hb.1
  have hvalid : ((J.invalidate sizes b).blocks b).valid = false := by
    rw [hdrops.valid, if_pos rfl]
  obtain ⟨hjump, htarget⟩ := hinv.patched.dropped b hlt hvalid
  refine ⟨fun s hs heq => ?_, hjump, htarget⟩
  by_cases hlinked : ∃ x < (J.invalidate sizes b).nblocks, ∃ l ∈ (L.drop b).incoming x,
      ((J.invalidate sizes b).links l).site = s
  · obtain ⟨x, hx, l, hl, rfl⟩ := hlinked
    rw [(hinv.jumpsRight.linked x hx l hl).2] at heq
    by_cases hxb : x = b
    · have hnil : (L.drop b).incoming b = [] := by
        show Function.update L.incoming b [] b = []
        rw [Function.update_self]
      rw [hxb, hnil] at hl
      exact absurd hl List.not_mem_nil
    · have hapart := hinv.laid.entries_apart x hx b hlt hxb
      omega
  · push Not at hlinked
    rw [hinv.jumpsRight.slow s hs hlinked] at heq
    have hapart := hinv.laid.exit_entry s hs b hlt
    omega

/-- The hash chains, the records and the jumps of every table reached. -/
theorem table_structure
    (hrun : (State.initial blocks links code).run sizes events = some s) :
    (∀ a b, s.jit.lookup sizes a = some b ↔ s.jit.Live b ∧ (s.jit.blocks b).start = a) ∧
    (∃ free incoming, Chain s.jit.next s.jit.freeLinks free ∧
      (∀ b < s.jit.nblocks, Chain s.jit.next (s.jit.blocks b).incoming (incoming b)) ∧
      s.jit.OneList free incoming ∧ s.jit.JumpsRight incoming) ∧
    ∀ b, s.jit.Live b → (s.jit.invalidate sizes b).Severed b := by
  obtain ⟨chain, L, h⟩ := ((State.inv_initial sizes blocks links code).run hrun).table
  exact ⟨fun a b => h.chained.lookup_eq_some_iff,
    ⟨L.free, L.incoming, h.recorded.free, h.recorded.incoming, h.recorded.oneList, h.jumpsRight⟩,
    fun b hb => h.severed hb⟩

/-! ## A block linked to itself -/

def sampleSizes : Sizes := ⟨2 ^ 20, 4096, by decide, by decide, by decide⟩

/-- A block of one instruction with one exit. -/
def oneExit : Made where
  n := 1
  smask := 0
  shash := 0x9e3779b97f4a7c15
  nmeta := 0
  code := List.replicate 32 0
  exits := [16]
  invStub := 24
  n_pos := by decide
  n_le := by decide
  code_le := by decide
  entry_le := by decide
  exits_bounds := by decide
  exits_apart := by decide
  exits_slow := by decide
  invStub_le := by decide

def emptyBlock : Block := ⟨0, 0, 0, 0, none, none, false, 0, 0⟩

def sampleState : State :=
  .initial (fun _ => emptyBlock) (fun _ => ⟨0, none⟩) fun _ => 0

def selfLink : List Event := [.enter 4096 oneExit, .ready, .leave 16 4096 oneExit]

theorem selfLink_isSome : (sampleState.run sampleSizes selfLink).isSome = true := by
  rfl

theorem table_structure_selfLink :
    (((sampleState.run sampleSizes selfLink).get selfLink_isSome).jit.invalidate
      sampleSizes 0).Severed 0 :=
  (table_structure (Option.some_get selfLink_isSome).symm).2.2 0 (by decide)

/-! ## Dropping the blocks over a word -/

theorem invalidateWord_exact
    (hrun : (State.initial blocks links code).run sizes events = some s) (w : ℕ) :
    (∀ b, (s.jit.invalidateWord sizes w).Live b →
      ¬ ((s.jit.invalidateWord sizes w).blocks b).Covers (8 * w)) ∧
    ∀ b, s.jit.Live b → ¬ (s.jit.blocks b).Covers (8 * w) →
      (s.jit.invalidateWord sizes w).Live b ∧
        (s.jit.invalidateWord sizes w).lookup sizes (s.jit.blocks b).start = some b := by
  obtain ⟨chain, L, h⟩ := ((State.inv_initial sizes blocks links code).run hrun).table
  have hdrops := h.invalidateWord w
  obtain ⟨chain', L', hinv⟩ := hdrops.inv
  refine ⟨fun b hb hcovers => ?_, fun b hb hcovers => ?_⟩
  · unfold Block.Covers at hcovers
    rw [(hdrops.frame.same b).start, (hdrops.frame.same b).n] at hcovers
    exact ((hdrops.live_iff b).mp hb).2 hcovers
  · have hlive := (hdrops.live_iff b).mpr ⟨hb, hcovers⟩
    exact ⟨hlive, hinv.chained.lookup_eq_some_iff.mpr ⟨hlive, (hdrops.frame.same b).start⟩⟩

theorem invalidateWord_exact_selfLink :
    ((((sampleState.run sampleSizes selfLink).get selfLink_isSome).jit.invalidateWord
      sampleSizes 511).Live 0 ∧
    (((sampleState.run sampleSizes selfLink).get selfLink_isSome).jit.invalidateWord
      sampleSizes 511).lookup sampleSizes 4096 = some 0) :=
  (invalidateWord_exact (Option.some_get selfLink_isSome).symm 511).2 0 (by decide) (by decide)

end BlockTable
end SubleqEmu
