import SubleqEmu.BlockTableCode

/-!
# The lists of a block table

A hash chain holds the valid blocks with its hash, and a link record is free or one
of a block's incoming ones.
-/

namespace SubleqEmu
namespace BlockTable

open IntrusiveList

def Jit.Live (J : Jit) (b : ℕ) : Prop := b < J.nblocks ∧ (J.blocks b).valid = true

instance (J : Jit) (b : ℕ) : Decidable (J.Live b) := inferInstanceAs (Decidable (_ ∧ _))

/-- The hash chains hold the valid blocks, of which no two start at one address. -/
structure Jit.Chained (sizes : Sizes) (J : Jit) (chain : ℕ → List ℕ) : Prop where
  nblocks_le : J.nblocks ≤ sizes.maxBlocks
  list : ∀ h, Chain J.hnext (J.htab h) (chain h)
  mem_iff : ∀ h b, b ∈ chain h ↔ J.Live b ∧ hash (J.blocks b).start = h
  start_inj : ∀ b b', J.Live b → J.Live b' → (J.blocks b).start = (J.blocks b').start → b = b'

/-- The lists that link records are on, and for each record the block whose list it is. -/
structure Links where
  free : List ℕ
  incoming : ℕ → List ℕ
  owner : ℕ → Option ℕ

structure Jit.Recorded (sizes : Sizes) (J : Jit) (L : Links) : Prop where
  nlinks_le : J.nlinks ≤ sizes.maxLinks
  free : Chain J.next J.freeLinks L.free
  incoming : ∀ b < J.nblocks, Chain J.next (J.blocks b).incoming (L.incoming b)
  mem_free : ∀ l, l ∈ L.free ↔ l < J.nlinks ∧ L.owner l = none
  mem_incoming : ∀ b < J.nblocks, ∀ l, l ∈ L.incoming b ↔ l < J.nlinks ∧ L.owner l = some b
  owner_lt : ∀ l < J.nlinks, ∀ b, L.owner l = some b → b < J.nblocks

variable {sizes : Sizes} {J J' : Jit} {chain : ℕ → List ℕ} {L : Links} {a b : ℕ}

theorem length_le_of_nodup {l : List ℕ} {n m : ℕ} (hnodup : l.Nodup) (hlt : ∀ x ∈ l, x < n)
    (hle : n ≤ m) : l.length ≤ m := by
  have hsub : l ⊆ List.range n := fun x hx => List.mem_range.mpr (hlt x hx)
  have hlength := (hnodup.subperm hsub).length_le
  rw [List.length_range] at hlength
  omega

/-! ## Looking blocks up -/

theorem Jit.Chained.length_le (h : J.Chained sizes chain) (k : ℕ) :
    (chain k).length ≤ sizes.maxBlocks :=
  length_le_of_nodup (h.list k).nodup (fun b hb => ((h.mem_iff k b).mp hb).1.1) h.nblocks_le

theorem Jit.Chained.lookup_eq (h : J.Chained sizes chain) (a : ℕ) :
    J.lookup sizes a = (chain (hash a)).find? fun b => (J.blocks b).start = a := by
  rw [Jit.lookup, (h.list _).walk (h.length_le _)]

theorem Jit.Chained.lookup_eq_some_iff (h : J.Chained sizes chain) :
    J.lookup sizes a = some b ↔ J.Live b ∧ (J.blocks b).start = a := by
  rw [h.lookup_eq]
  constructor
  · intro hfind
    have hstart := List.find?_some hfind
    have hmem := List.mem_of_find?_eq_some hfind
    exact ⟨((h.mem_iff _ b).mp hmem).1, by simpa using hstart⟩
  · rintro ⟨hlive, rfl⟩
    have hmem : b ∈ chain (hash (J.blocks b).start) := (h.mem_iff _ b).mpr ⟨hlive, rfl⟩
    cases hfind : (chain (hash (J.blocks b).start)).find? fun b' =>
        (J.blocks b').start = (J.blocks b).start with
    | none =>
        have hnone := List.find?_eq_none.mp hfind b hmem
        exact absurd (decide_eq_true rfl) hnone
    | some b' =>
        have hstart := List.find?_some hfind
        have hlive' := ((h.mem_iff _ b').mp (List.mem_of_find?_eq_some hfind)).1
        rw [h.start_inj b' b hlive' hlive (by simpa using hstart)]

theorem Jit.Chained.lookup_eq_none (h : J.Chained sizes chain) (hnone : J.lookup sizes a = none)
    (hlive : J.Live b) : (J.blocks b).start ≠ a := by
  intro hstart
  rw [h.lookup_eq_some_iff.mpr ⟨hlive, hstart⟩] at hnone
  exact absurd hnone nofun

/-! ## What a block keeps -/

/-- The fields of a block that stay as they were made. -/
structure Block.Same (blk blk' : Block) : Prop where
  start : blk'.start = blk.start
  n : blk'.n = blk.n
  entry : blk'.entry = blk.entry
  invStub : blk'.invStub = blk.invStub
  smask : blk'.smask = blk.smask
  shash : blk'.shash = blk.shash

theorem Block.Same.refl (blk : Block) : blk.Same blk := ⟨rfl, rfl, rfl, rfl, rfl, rfl⟩

theorem Block.Same.trans {blk₁ blk₂ blk₃ : Block} (h : blk₁.Same blk₂) (h' : blk₂.Same blk₃) :
    blk₁.Same blk₃ :=
  ⟨h'.start.trans h.start, h'.n.trans h.n, h'.entry.trans h.entry, h'.invStub.trans h.invStub,
    h'.smask.trans h.smask, h'.shash.trans h.shash⟩

/-! ## Taking a block out of its chain -/

theorem Jit.writeChain_htab (h : ℕ) (pp value : Option ℕ) :
    (J.writeChain h pp value).htab =
      Function.update J.htab h (writeHead pp value (J.htab h)) := by
  cases pp with
  | none => rfl
  | some y => exact (Function.update_eq_self _ _).symm

theorem Jit.writeChain_hnext (h : ℕ) (pp value : Option ℕ) :
    (J.writeChain h pp value).hnext = writeNext pp value J.hnext := by
  cases pp with
  | none => rfl
  | some y =>
      funext x
      show (Function.update J.blocks y _ x).hnext = Function.update J.hnext y value x
      by_cases hx : x = y
      · rw [hx, Function.update_self, Function.update_self]
      · rw [Function.update_of_ne hx, Function.update_of_ne hx]
        rfl

/-- Only the pointers of the chains change. -/
theorem Jit.writeChain_blocks (h : ℕ) (pp value : Option ℕ) (b : ℕ) :
    (J.blocks b).Same ((J.writeChain h pp value).blocks b) ∧
      ((J.writeChain h pp value).blocks b).valid = (J.blocks b).valid ∧
      ((J.writeChain h pp value).blocks b).incoming = (J.blocks b).incoming := by
  cases pp with
  | none => exact ⟨.refl _, rfl, rfl⟩
  | some y =>
      show (J.blocks b).Same (Function.update J.blocks y _ b) ∧
        (Function.update J.blocks y _ b).valid = _ ∧
        (Function.update J.blocks y _ b).incoming = _
      by_cases hb : b = y
      · rw [hb, Function.update_self]
        exact ⟨⟨rfl, rfl, rfl, rfl, rfl, rfl⟩, rfl, rfl⟩
      · rw [Function.update_of_ne hb]
        exact ⟨.refl _, rfl, rfl⟩

/-! ## Freeing the records of a list -/

theorem Jit.unlinkAll_spec {fuel : ℕ} {head : Option ℕ} {l free : List ℕ}
    (h : Chain J.next head l) (hle : l.length ≤ fuel) (hfree : Chain J.next J.freeLinks free)
    (hdisjoint : ∀ x ∈ l, x ∉ free) :
    ∃ links code freeLinks, J.unlinkAll fuel head =
        { J with links := links, code := code, freeLinks := freeLinks } ∧
      Chain (fun x => (links x).next) freeLinks (l.reverse ++ free) ∧
      (∀ x, (links x).site = (J.links x).site) ∧ (∀ x, x ∉ l → links x = J.links x) ∧
      code = l.foldl (fun code x => patchRel32 code (J.links x).site ((J.links x).site + 4))
        J.code := by
  induction l generalizing J head fuel free with
  | nil =>
      rw [chain_nil_iff.mp h]
      refine ⟨J.links, J.code, J.freeLinks, ?_, hfree, fun x => rfl, fun x hx => rfl, rfl⟩
      cases fuel <;> rfl
  | cons x l ih =>
      have hnodup := List.nodup_cons.mp h.nodup
      have hx : x ∉ free := hdisjoint x List.mem_cons_self
      obtain ⟨rfl, hrest⟩ := h
      cases fuel with
      | zero => exact absurd hle (Nat.not_succ_le_zero _)
      | succ fuel =>
          obtain ⟨J₁, hJ₁⟩ : ∃ J₁ : Jit, J₁ =
              { J with
                code := patchRel32 J.code (J.links x).site ((J.links x).site + 4)
                links := Function.update J.links x { J.links x with next := J.freeLinks }
                freeLinks := some x } := ⟨_, rfl⟩
          have hnext : J₁.next = Function.update J.next x J.freeLinks := by
            funext y
            rw [hJ₁]
            show (Function.update J.links x _ y).next = _
            by_cases hy : y = x
            · rw [hy, Function.update_self, Function.update_self]
            · rw [Function.update_of_ne hy, Function.update_of_ne hy]
              rfl
          have hsite : ∀ y, (J₁.links y).site = (J.links y).site := by
            intro y
            rw [hJ₁]
            show (Function.update J.links x _ y).site = _
            by_cases hy : y = x
            · rw [hy, Function.update_self]
            · rw [Function.update_of_ne hy]
          have hlater : Chain J₁.next (J.next x) l := by
            apply hrest.congr
            intro y hy
            rw [hnext, Function.update_of_ne]
            rintro rfl
            exact hnodup.1 hy
          have hpushed : Chain J₁.next J₁.freeLinks (x :: free) := by
            rw [hnext, hJ₁]
            exact hfree.push hx
          obtain ⟨links, code, freeLinks, heq, hchain, hsites, hother, hcode⟩ :=
            ih hlater (Nat.le_of_succ_le_succ hle) hpushed (by
              intro y hy hmem
              rcases List.mem_cons.mp hmem with rfl | hmem
              · exact hnodup.1 hy
              · exact hdisjoint y (List.mem_cons_of_mem _ hy) hmem)
          refine ⟨links, code, freeLinks, ?_, ?_, ?_, ?_, ?_⟩
          · rw [Jit.unlinkAll]
            show Jit.unlinkAll fuel (J.next x) _ = _
            rw [← hJ₁, heq, hJ₁]
          · rw [List.reverse_cons, List.append_assoc]
            exact hchain
          · intro y
            rw [hsites, hsite]
          · intro y hy
            rw [List.mem_cons, not_or] at hy
            rw [hother y hy.2, hJ₁]
            exact Function.update_of_ne hy.1 _ _
          · rw [hcode, List.foldl_cons]
            simp only [hsite]
            rw [hJ₁]

end BlockTable
end SubleqEmu
