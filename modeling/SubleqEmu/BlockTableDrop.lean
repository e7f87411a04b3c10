import SubleqEmu.BlockTableLists

/-!
# Dropping blocks

`invalidate` takes a valid block out of its chain, frees its records and sends what
jumps to it elsewhere; the rest of the table stays as it is.
-/

namespace SubleqEmu
namespace BlockTable

open IntrusiveList

variable {sizes : Sizes} {J : Jit} {chain : ℕ → List ℕ} {L : Links} {b : ℕ}

/-- The code once the jumps from some records are slow. -/
def Jit.unpatched (J : Jit) (l : List ℕ) : ℕ → BitVec 8 :=
  l.foldl (fun code x => patchRel32 code (J.links x).site ((J.links x).site + 4)) J.code

/-- The code once a block that some records jump to is dropped. -/
def Jit.droppedCode (J : Jit) (b : ℕ) (l : List ℕ) : ℕ → BitVec 8 :=
  patchRel32 (Function.update (J.unpatched l) (J.blocks b).entry 0xe9) ((J.blocks b).entry + 1)
    (J.blocks b).invStub

/-- What dropping a block leaves. -/
structure Jit.Drops (J : Jit) (b : ℕ) (chain : ℕ → List ℕ) (L : Links) (J' : Jit) : Prop where
  nblocks : J'.nblocks = J.nblocks
  nlinks : J'.nlinks = J.nlinks
  nmeta : J'.nmeta = J.nmeta
  codePtr : J'.codePtr = J.codePtr
  pending : J'.pending = J.pending
  flushes : J'.flushes = J.flushes
  exits : J'.exits = J.exits
  same : ∀ x, (J.blocks x).Same (J'.blocks x)
  valid : ∀ x, (J'.blocks x).valid = if x = b then false else (J.blocks x).valid
  incoming : ∀ x, (J'.blocks x).incoming = if x = b then none else (J.blocks x).incoming
  chain : ∀ k, Chain J'.hnext (J'.htab k) ((chain k).erase b)
  free : Chain J'.next J'.freeLinks ((L.incoming b).reverse ++ L.free)
  site : ∀ x, (J'.links x).site = (J.links x).site
  links : ∀ x, x ∉ L.incoming b → J'.links x = J.links x
  code : J'.code = J.droppedCode b (L.incoming b)

theorem Jit.Chained.unchain (h : J.Chained sizes chain) (hb : J.Live b) :
    ∃ htab blocks, J.unchain sizes b = { J with htab := htab, blocks := blocks } ∧
      (∀ x, (J.blocks x).Same (blocks x) ∧
        (blocks x).valid = (if x = b then false else (J.blocks x).valid) ∧
        (blocks x).incoming = (J.blocks x).incoming) ∧
      ∀ k, Chain (fun x => (blocks x).hnext) (htab k) ((chain k).erase b) := by
  obtain ⟨J₁, hJ₁⟩ : ∃ J₁ : Jit, J₁ =
      { J with blocks := Function.update J.blocks b { J.blocks b with valid := false } } :=
    ⟨_, rfl⟩
  obtain ⟨k, hk⟩ : ∃ k, k = hash (J.blocks b).start := ⟨_, rfl⟩
  have hnext : J₁.hnext = J.hnext := by
    funext x
    rw [hJ₁]
    show (Function.update J.blocks b _ x).hnext = (J.blocks x).hnext
    by_cases hx : x = b
    · rw [hx, Function.update_self]
    · rw [Function.update_of_ne hx]
  have hmarked : ∀ x, (J.blocks x).Same (J₁.blocks x) ∧
      (J₁.blocks x).valid = (if x = b then false else (J.blocks x).valid) ∧
      (J₁.blocks x).incoming = (J.blocks x).incoming := by
    rw [hJ₁]
    apply (Function.forall_update_iff J.blocks fun x blk => (J.blocks x).Same blk ∧
      blk.valid = (if x = b then false else (J.blocks x).valid) ∧
      blk.incoming = (J.blocks x).incoming).mpr
    refine ⟨⟨⟨rfl, rfl, rfl, rfl, rfl, rfl⟩, (if_pos rfl).symm, rfl⟩, fun x hx => ?_⟩
    exact ⟨.refl _, (if_neg hx).symm, rfl⟩
  have hmem : b ∈ chain k := (h.mem_iff k b).mpr ⟨hb, hk.symm⟩
  obtain ⟨s, hseek, hunlinked, hfar⟩ := (h.list k).unlink hmem (h.length_le k)
  have hhtab : J₁.htab = J.htab := by rw [hJ₁]
  have heq : J.unchain sizes b = J₁.writeChain k s (J.hnext b) := by
    have hstart : hash (J₁.blocks b).start = k := by rw [(hmarked b).1.start, hk]
    rw [Jit.unchain, ← hJ₁]
    simp only [hstart, hnext, hhtab, hseek]
    exact if_neg nofun
  rw [heq]
  refine ⟨(J₁.writeChain k s (J.hnext b)).htab, (J₁.writeChain k s (J.hnext b)).blocks, ?_,
    fun x => ?_, fun k' => ?_⟩
  · rw [hJ₁]
    cases s <;> rfl
  · obtain ⟨hsame, hvalid, hincoming⟩ := Jit.writeChain_blocks (J := J₁) k s (J.hnext b) x
    exact ⟨(hmarked x).1.trans hsame, hvalid.trans (hmarked x).2.1,
      hincoming.trans (hmarked x).2.2⟩
  · show Chain (J₁.writeChain k s (J.hnext b)).hnext _ _
    rw [Jit.writeChain_hnext, Jit.writeChain_htab, hnext, hhtab]
    by_cases hk' : k' = k
    · rw [hk', Function.update_self]
      exact hunlinked
    · have hnot : b ∉ chain k' := fun hmem' =>
        hk' (((h.mem_iff k' b).mp hmem').2.symm.trans hk.symm)
      rw [Function.update_of_ne hk', List.erase_of_not_mem hnot]
      apply (h.list k').congr
      intro x hx
      apply hfar
      intro hxk
      exact hk' (((h.mem_iff k' x).mp hx).2.symm.trans ((h.mem_iff k x).mp hxk).2)

theorem Jit.Recorded.length_incoming_le (h : J.Recorded sizes L) (hb : b < J.nblocks) :
    (L.incoming b).length ≤ sizes.maxLinks :=
  length_le_of_nodup (h.incoming b hb).nodup (fun l hl => ((h.mem_incoming b hb l).mp hl).1)
    h.nlinks_le

theorem Jit.Chained.drops (h : J.Chained sizes chain) (hrecorded : J.Recorded sizes L)
    (hb : J.Live b) : J.Drops b chain L (J.invalidate sizes b) := by
  obtain ⟨htab, blocks, hJ₂, hblocks, hchain⟩ := h.unchain hb
  have hdisjoint : ∀ x ∈ L.incoming b, x ∉ L.free := by
    intro x hx hfree
    have howner := ((hrecorded.mem_incoming b hb.1 x).mp hx).2
    rw [((hrecorded.mem_free x).mp hfree).2] at howner
    exact absurd howner nofun
  obtain ⟨links, code, freeLinks, hJ₃, hfree, hsite, hlinks, hcode⟩ :=
    Jit.unlinkAll_spec (J := { J with htab := htab, blocks := blocks })
      (hrecorded.incoming b hb.1) (hrecorded.length_incoming_le hb.1) hrecorded.free hdisjoint
  obtain ⟨hsame, -, hincoming⟩ := hblocks b
  have heq : J.invalidate sizes b =
      { J with
        htab := htab
        blocks := Function.update blocks b { blocks b with incoming := none }
        links := links
        freeLinks := freeLinks
        code := patchRel32 (Function.update code (blocks b).entry 0xe9) ((blocks b).entry + 1)
          (blocks b).invStub } := by
    rw [Jit.invalidate, if_neg (by simp [hb.2]), hJ₂]
    dsimp only at hJ₃ ⊢
    rw [hincoming, hJ₃]
  rw [heq]
  have hlast : ∀ x, (J.blocks x).Same
        (Function.update blocks b { blocks b with incoming := none } x) ∧
      (Function.update blocks b { blocks b with incoming := none } x).valid =
        (if x = b then false else (J.blocks x).valid) ∧
      (Function.update blocks b { blocks b with incoming := none } x).incoming =
        (if x = b then none else (J.blocks x).incoming) ∧
      (Function.update blocks b { blocks b with incoming := none } x).hnext = (blocks x).hnext := by
    apply (Function.forall_update_iff blocks fun x blk => (J.blocks x).Same blk ∧
      blk.valid = (if x = b then false else (J.blocks x).valid) ∧
      blk.incoming = (if x = b then none else (J.blocks x).incoming) ∧
      blk.hnext = (blocks x).hnext).mpr
    refine ⟨⟨hsame.trans ⟨rfl, rfl, rfl, rfl, rfl, rfl⟩, (hblocks b).2.1, (if_pos rfl).symm, rfl⟩,
      fun x hx => ⟨(hblocks x).1, (hblocks x).2.1, ?_, rfl⟩⟩
    rw [if_neg hx]
    exact (hblocks x).2.2
  refine ⟨rfl, rfl, rfl, rfl, rfl, rfl, rfl, fun x => (hlast x).1, fun x => (hlast x).2.1,
    fun x => (hlast x).2.2.1, fun k => ?_, hfree, hsite, hlinks, ?_⟩
  · exact (hchain k).congr fun x hx => (hlast x).2.2.2
  · show patchRel32 (Function.update code _ _) _ _ = _
    rw [hcode, hsame.entry, hsame.invStub]
    rfl

end BlockTable
end SubleqEmu
