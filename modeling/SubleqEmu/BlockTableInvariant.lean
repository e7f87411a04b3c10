import SubleqEmu.BlockTableDrop

/-!
# The invariant of a block table

What holds of the lists and of the code, and that dropping a block preserves it.
-/

namespace SubleqEmu
namespace BlockTable

open IntrusiveList

/-- The sites of linked records jump to the blocks, all other exits to their slow paths. -/
structure Jit.Patched (J : Jit) (owner : ℕ → Option ℕ) : Prop where
  site_mem : ∀ l < J.nlinks, ∀ b, owner l = some b → (J.links l).site ∈ J.exits
  site_inj : ∀ l < J.nlinks, ∀ l' < J.nlinks, owner l ≠ none → owner l' ≠ none →
    (J.links l).site = (J.links l').site → l = l'
  linked : ∀ l < J.nlinks, ∀ b, owner l = some b →
    jumpTarget J.code (J.links l).site = (J.blocks b).entry
  slow : ∀ s ∈ J.exits, (∀ l < J.nlinks, owner l ≠ none → (J.links l).site ≠ s) →
    jumpTarget J.code s = s + 4
  dropped : ∀ b < J.nblocks, (J.blocks b).valid = false →
    J.code (J.blocks b).entry = 0xe9 ∧
      jumpTarget J.code ((J.blocks b).entry + 1) = (J.blocks b).invStub

/-- A block of 1 to `JIT_MAX_BLOCK` instructions in memory. -/
structure Block.Shaped (sizes : Sizes) (blk : Block) : Prop where
  aligned : blk.start % 8 = 0
  n_pos : 0 < blk.n
  n_le : blk.n ≤ jitMaxBlock
  end_le : blk.start + 24 * blk.n ≤ sizes.memSize

structure Jit.Inv (sizes : Sizes) (J : Jit) (chain : ℕ → List ℕ) (L : Links) : Prop where
  chained : J.Chained sizes chain
  recorded : J.Recorded sizes L
  patched : J.Patched L.owner
  laid : J.Laid sizes
  shaped : ∀ b < J.nblocks, (J.blocks b).Shaped sizes

variable {sizes : Sizes} {J J' : Jit} {chain : ℕ → List ℕ} {L : Links} {b : ℕ}

theorem Jit.Inv.linked_lt (h : J.Inv sizes chain L) {x : ℕ} (hb : b < J.nblocks)
    (hx : x ∈ L.incoming b) : x < J.nlinks ∧ L.owner x = some b :=
  (h.recorded.mem_incoming b hb x).mp hx

theorem Jit.Inv.site_mem (h : J.Inv sizes chain L) {x : ℕ} (hb : b < J.nblocks)
    (hx : x ∈ L.incoming b) : (J.links x).site ∈ J.exits :=
  h.patched.site_mem x (h.linked_lt hb hx).1 b (h.linked_lt hb hx).2

/-! ## The code of a dropped block -/

theorem Jit.unpatched_of_apart {l : List ℕ} {a : ℕ}
    (h : ∀ x ∈ l, a < (J.links x).site ∨ (J.links x).site + 4 ≤ a) :
    J.unpatched l a = J.code a := by
  induction l using List.reverseRecOn with
  | nil => rfl
  | append_singleton l x ih =>
      rw [Jit.unpatched, List.foldl_append]
      show patchRel32 (J.unpatched l) _ _ a = _
      rw [patchRel32_of_apart (h x (by simp)), ih fun y hy => h y (List.mem_append_left _ hy)]

/-- The sites of the freed records are slow. -/
theorem Jit.jumpTarget_unpatched {l : List ℕ} {x : ℕ}
    (hlt : ∀ y ∈ l, (J.links y).site + 4 < 2 ^ 31)
    (hapart : ∀ y ∈ l, ∀ z ∈ l, (J.links y).site ≠ (J.links z).site →
      (J.links y).site + 4 ≤ (J.links z).site ∨ (J.links z).site + 4 ≤ (J.links y).site)
    (hx : x ∈ l) : jumpTarget (J.unpatched l) (J.links x).site = (J.links x).site + 4 := by
  induction l using List.reverseRecOn with
  | nil => exact absurd hx List.not_mem_nil
  | append_singleton l y ih =>
      have hy : y ∈ l ++ [y] := by simp
      rw [Jit.unpatched, List.foldl_append]
      show jumpTarget (patchRel32 (J.unpatched l) (J.links y).site _) _ = _
      by_cases heq : (J.links x).site = (J.links y).site
      · rw [heq, jumpTarget_patchRel32 (hlt y hy) (hlt y hy)]
        rfl
      · have hmem : x ∈ l := by
          rcases List.mem_append.mp hx with hmem | hmem
          · exact hmem
          · rw [List.mem_singleton.mp hmem] at heq
            exact absurd rfl heq
        rw [jumpTarget_patchRel32_of_apart (hapart x hx y hy heq)]
        exact ih (fun z hz => hlt z (List.mem_append_left _ hz))
          (fun z hz z' hz' => hapart z (List.mem_append_left _ hz) z' (List.mem_append_left _ hz'))
          hmem

theorem Jit.droppedCode_of_apart {l : List ℕ} {a : ℕ}
    (h : a < (J.blocks b).entry ∨ (J.blocks b).entry + 5 ≤ a) :
    J.droppedCode b l a = J.unpatched l a := by
  rw [Jit.droppedCode, patchRel32_of_apart (by omega), Function.update_of_ne (by omega)]

theorem Jit.droppedCode_entry (l : List ℕ) : J.droppedCode b l (J.blocks b).entry = 0xe9 := by
  rw [Jit.droppedCode, patchRel32_of_apart (by omega), Function.update_self]

theorem Jit.Laid.jumpTarget_droppedCode_entry (h : J.Laid sizes) (hb : b < J.nblocks)
    (l : List ℕ) : jumpTarget (J.droppedCode b l) ((J.blocks b).entry + 1) =
      (J.blocks b).invStub := by
  have hlt := h.entry_lt hb
  exact jumpTarget_patchRel32 (by omega) (by omega)

theorem Jit.Laid.jumpTarget_droppedCode_exit (h : J.Laid sizes) (hb : b < J.nblocks) {s : ℕ}
    (hs : s ∈ J.exits) (l : List ℕ) :
    jumpTarget (J.droppedCode b l) s = jumpTarget (J.unpatched l) s := by
  have happart := h.exit_entry s hs b hb
  apply jumpTarget_congr
  intro k hk
  exact Jit.droppedCode_of_apart (by omega)

/-- An exit that none of the freed records is at. -/
theorem Jit.Laid.jumpTarget_unpatched_exit (h : J.Laid sizes) {s : ℕ} (hs : s ∈ J.exits)
    {l : List ℕ} (hsites : ∀ x ∈ l, (J.links x).site ∈ J.exits)
    (hne : ∀ x ∈ l, (J.links x).site ≠ s) :
    jumpTarget (J.unpatched l) s = jumpTarget J.code s := by
  apply jumpTarget_congr
  intro k hk
  apply Jit.unpatched_of_apart
  intro x hx
  have hapart := h.exits_apart _ (hsites x hx) s hs (hne x hx)
  omega

/-- The first instruction of another block. -/
theorem Jit.Laid.droppedCode_other (h : J.Laid sizes) (hb : b < J.nblocks) {b' : ℕ}
    (hb' : b' < J.nblocks) (hne : b' ≠ b) {l : List ℕ}
    (hsites : ∀ x ∈ l, (J.links x).site ∈ J.exits) {k : ℕ} (hk : k < 5) :
    J.droppedCode b l ((J.blocks b').entry + k) = J.code ((J.blocks b').entry + k) := by
  have hapart := h.entries_apart b' hb' b hb hne
  rw [Jit.droppedCode_of_apart (by omega)]
  apply Jit.unpatched_of_apart
  intro x hx
  have hsite := h.exit_entry _ (hsites x hx) b' hb'
  omega

/-! ## Dropping a block -/

/-- The lists once a block is dropped. -/
def Links.drop (L : Links) (b : ℕ) : Links where
  free := (L.incoming b).reverse ++ L.free
  incoming := Function.update L.incoming b []
  owner := fun l => if L.owner l = some b then none else L.owner l

theorem Jit.Drops.live_iff (hdrops : J.Drops b chain L J') {x : ℕ} :
    J'.Live x ↔ J.Live x ∧ x ≠ b := by
  unfold Jit.Live
  rw [hdrops.nblocks, hdrops.valid]
  by_cases hx : x = b
  · simp [hx]
  · simp [hx]

theorem Jit.Drops.chained (hdrops : J.Drops b chain L J') (h : J.Chained sizes chain) :
    J'.Chained sizes fun k => (chain k).erase b := by
  constructor
  · rw [hdrops.nblocks]
    exact h.nblocks_le
  · exact hdrops.chain
  · intro k x
    rw [(h.list k).nodup.mem_erase_iff, h.mem_iff, hdrops.live_iff, (hdrops.same x).start]
    tauto
  · intro x y hx hy hstart
    rw [(hdrops.same x).start, (hdrops.same y).start] at hstart
    exact h.start_inj x y (hdrops.live_iff.mp hx).1 (hdrops.live_iff.mp hy).1 hstart

theorem Jit.Drops.recorded (hdrops : J.Drops b chain L J') (h : J.Recorded sizes L)
    (hb : b < J.nblocks) : J'.Recorded sizes (L.drop b) := by
  have hnext : ∀ x, x ∉ L.incoming b → J'.next x = J.next x := by
    intro x hx
    rw [Jit.next, hdrops.links x hx]
    rfl
  constructor
  · rw [hdrops.nlinks]
    exact h.nlinks_le
  · exact hdrops.free
  · intro x hx
    rw [hdrops.nblocks] at hx
    rw [hdrops.incoming]
    show Chain _ _ (Function.update L.incoming b [] x)
    by_cases hxb : x = b
    · rw [if_pos hxb, hxb, Function.update_self]
      rfl
    · rw [if_neg hxb, Function.update_of_ne hxb]
      apply (h.incoming x hx).congr
      intro l hl
      apply hnext
      intro hlb
      have howner := ((h.mem_incoming x hx l).mp hl).2
      rw [((h.mem_incoming b hb l).mp hlb).2] at howner
      exact hxb (Option.some.inj howner).symm
  · intro l
    rw [hdrops.nlinks]
    show l ∈ (L.incoming b).reverse ++ L.free ↔ _ ∧ (if _ then _ else _) = _
    rw [List.mem_append, List.mem_reverse, h.mem_incoming b hb, h.mem_free]
    split_ifs with howner
    · simp [howner]
    · simp [howner]
  · intro x hx l
    rw [hdrops.nblocks] at hx
    rw [hdrops.nlinks]
    show l ∈ Function.update L.incoming b [] x ↔ _ ∧ (if _ then _ else _) = _
    by_cases hxb : x = b
    · rw [hxb, Function.update_self]
      split_ifs with howner
      · simp
      · simp [howner]
    · rw [Function.update_of_ne hxb, h.mem_incoming x hx]
      split_ifs with howner
      · rw [howner]
        simp [Ne.symm hxb]
      · rfl
  · intro l hl x hx
    rw [hdrops.nlinks] at hl
    rw [hdrops.nblocks]
    apply h.owner_lt l hl
    by_contra hne
    have hx' : (if L.owner l = some b then none else L.owner l) = some x := hx
    split_ifs at hx' with howner
    exact hne hx'

theorem Links.owner_drop {l x : ℕ} :
    (L.drop b).owner l = some x ↔ L.owner l = some x ∧ x ≠ b := by
  show (if L.owner l = some b then none else L.owner l) = some x ↔ _
  split_ifs with howner
  · rw [howner]
    simp only [Option.some.injEq, false_iff, not_and, not_not]
    exact Eq.symm
  · constructor
    · intro hx
      refine ⟨hx, ?_⟩
      rintro rfl
      exact howner hx
    · exact And.left

theorem Links.owner_drop_ne_none {l : ℕ} :
    (L.drop b).owner l ≠ none ↔ L.owner l ≠ none ∧ L.owner l ≠ some b := by
  show (if L.owner l = some b then none else L.owner l) ≠ none ↔ _
  split_ifs with howner
  · simp [howner]
  · simp [howner]

/-- An exit that was not linked to the block stays as it is. -/
theorem Jit.Drops.jumpTarget_exit (hdrops : J.Drops b chain L J') (h : J.Inv sizes chain L)
    (hb : J.Live b) {s : ℕ} (hs : s ∈ J.exits)
    (hne : ∀ x ∈ L.incoming b, (J.links x).site ≠ s) :
    jumpTarget J'.code s = jumpTarget J.code s := by
  rw [hdrops.code, h.laid.jumpTarget_droppedCode_exit hb.1 hs,
    h.laid.jumpTarget_unpatched_exit hs (fun x hx => h.site_mem hb.1 hx) hne]

theorem Jit.Drops.patched (hdrops : J.Drops b chain L J') (h : J.Inv sizes chain L)
    (hb : J.Live b) : J'.Patched (L.drop b).owner := by
  have hsites : ∀ x ∈ L.incoming b, (J.links x).site ∈ J.exits :=
    fun x hx => h.site_mem hb.1 hx
  have hexit : ∀ s ∈ J.exits, (∀ x ∈ L.incoming b, (J.links x).site ≠ s) →
      jumpTarget J'.code s = jumpTarget J.code s :=
    fun s hs hne => hdrops.jumpTarget_exit h hb hs hne
  constructor
  · intro l hl x hx
    rw [hdrops.nlinks] at hl
    rw [hdrops.site, hdrops.exits]
    exact h.patched.site_mem l hl x (Links.owner_drop.mp hx).1
  · intro l hl l' hl' howner howner' hsite
    rw [hdrops.nlinks] at hl hl'
    rw [hdrops.site, hdrops.site] at hsite
    exact h.patched.site_inj l hl l' hl' (Links.owner_drop_ne_none.mp howner).1
      (Links.owner_drop_ne_none.mp howner').1 hsite
  · intro l hl x hx
    rw [hdrops.nlinks] at hl
    obtain ⟨howner, hxb⟩ := Links.owner_drop.mp hx
    rw [hdrops.site, (hdrops.same x).entry, ← h.patched.linked l hl x howner]
    apply hexit _ (h.patched.site_mem l hl x howner)
    intro y hy hsite
    obtain ⟨hylt, hyowner⟩ := h.linked_lt hb.1 hy
    have heq := h.patched.site_inj y hylt l hl (by simp [hyowner]) (by simp [howner]) hsite
    rw [heq, howner] at hyowner
    exact hxb (Option.some.inj hyowner)
  · intro s hs hnot
    rw [hdrops.exits] at hs
    by_cases hfreed : ∃ x ∈ L.incoming b, (J.links x).site = s
    · obtain ⟨x, hx, rfl⟩ := hfreed
      rw [hdrops.code, h.laid.jumpTarget_droppedCode_exit hb.1 hs]
      apply Jit.jumpTarget_unpatched _ _ hx
      · intro y hy
        have hlt := h.laid.exit_lt (hsites y hy)
        omega
      · intro y hy z hz hne
        have hapart := h.laid.exits_apart _ (hsites y hy) _ (hsites z hz) hne
        omega
    · push Not at hfreed
      rw [hexit s hs hfreed]
      apply h.patched.slow s hs
      intro l hl howner hsite
      by_cases hlb : L.owner l = some b
      · exact hfreed l ((h.recorded.mem_incoming b hb.1 l).mpr ⟨hl, hlb⟩) hsite
      · refine hnot l (by rwa [hdrops.nlinks]) (Links.owner_drop_ne_none.mpr ⟨howner, hlb⟩) ?_
        rwa [hdrops.site]
  · intro x hx hvalid
    rw [hdrops.nblocks] at hx
    rw [hdrops.valid] at hvalid
    rw [(hdrops.same x).entry, (hdrops.same x).invStub, hdrops.code]
    by_cases hxb : x = b
    · rw [hxb]
      exact ⟨Jit.droppedCode_entry _, h.laid.jumpTarget_droppedCode_entry hb.1 _⟩
    · rw [if_neg hxb] at hvalid
      obtain ⟨hentry, htarget⟩ := h.patched.dropped x hx hvalid
      have hother : ∀ k < 5, J.droppedCode b (L.incoming b) ((J.blocks x).entry + k) =
          J.code ((J.blocks x).entry + k) :=
        fun k hk => h.laid.droppedCode_other hb.1 hx hxb hsites hk
      refine ⟨(hother 0 (by decide)).trans hentry, ?_⟩
      rw [← htarget]
      apply jumpTarget_congr
      intro k hk
      rw [Nat.add_assoc]
      exact hother (1 + k) (by omega)

theorem Jit.Drops.inv (hdrops : J.Drops b chain L J') (h : J.Inv sizes chain L)
    (hb : J.Live b) : J'.Inv sizes (fun k => (chain k).erase b) (L.drop b) := by
  refine ⟨hdrops.chained h.chained, hdrops.recorded h.recorded hb.1, hdrops.patched h hb,
    h.laid.congr hdrops.codePtr hdrops.exits hdrops.nblocks fun x =>
      ⟨(hdrops.same x).entry, (hdrops.same x).invStub⟩, fun x hx => ?_⟩
  rw [hdrops.nblocks] at hx
  obtain ⟨haligned, hpos, hle, hend⟩ := h.shaped x hx
  exact ⟨by rwa [(hdrops.same x).start], by rwa [(hdrops.same x).n], by rwa [(hdrops.same x).n],
    by rwa [(hdrops.same x).start, (hdrops.same x).n]⟩

end BlockTable
end SubleqEmu
