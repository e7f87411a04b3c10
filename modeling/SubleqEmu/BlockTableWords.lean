import SubleqEmu.BlockTableChanges

/-!
# Dropping the blocks over a word

The starts that `invalidate_word` looks up are those of every block that can reach the
word, so it drops exactly the blocks that do.
-/

namespace SubleqEmu
namespace BlockTable

variable {sizes : Sizes} {J J' J'' : Jit} {chain : ℕ → List ℕ} {L : Links} {a b s w : ℕ}

/-- Whether a block's range has the byte at an address. -/
def Block.Covers (blk : Block) (a : ℕ) : Prop := blk.start ≤ a ∧ a < blk.start + 24 * blk.n

instance (blk : Block) (a : ℕ) : Decidable (blk.Covers a) := inferInstanceAs (Decidable (_ ∧ _))

/-- What no dropping changes. -/
structure Jit.Frame (J J' : Jit) : Prop where
  nblocks : J'.nblocks = J.nblocks
  nlinks : J'.nlinks = J.nlinks
  nmeta : J'.nmeta = J.nmeta
  codePtr : J'.codePtr = J.codePtr
  pending : J'.pending = J.pending
  flushes : J'.flushes = J.flushes
  exits : J'.exits = J.exits
  same : ∀ x, (J.blocks x).Same (J'.blocks x)

theorem Jit.Frame.refl (J : Jit) : J.Frame J :=
  ⟨rfl, rfl, rfl, rfl, rfl, rfl, rfl, fun _ => .refl _⟩

theorem Jit.Frame.trans (h : J.Frame J') (h' : J'.Frame J'') : J.Frame J'' :=
  ⟨h'.nblocks.trans h.nblocks, h'.nlinks.trans h.nlinks, h'.nmeta.trans h.nmeta,
    h'.codePtr.trans h.codePtr,
    h'.pending.trans h.pending, h'.flushes.trans h.flushes, h'.exits.trans h.exits,
    fun x => (h.same x).trans (h'.same x)⟩

theorem Jit.Drops.frame (h : J.Drops b chain L J') : J.Frame J' :=
  ⟨h.nblocks, h.nlinks, h.nmeta, h.codePtr, h.pending, h.flushes, h.exits, h.same⟩

/-- Only valid blocks have jumps linked to them. -/
def Jit.LinksLive (J : Jit) : Prop :=
  ∀ b < J.nblocks, (J.blocks b).incoming ≠ none → (J.blocks b).valid = true

/-- What dropping the blocks with a property, and no others, leaves. -/
structure Jit.DropsOnly (sizes : Sizes) (J : Jit) (P : ℕ → Prop) (J' : Jit) : Prop where
  inv : ∃ chain L, J'.Inv sizes chain L
  frame : J.Frame J'
  live_iff : ∀ b, J'.Live b ↔ J.Live b ∧ ¬ P b
  linksLive : J.LinksLive → J'.LinksLive
  slow : ∀ s ∈ J.exits, jumpTarget J.code s = s + 4 → jumpTarget J'.code s = s + 4

theorem Jit.Inv.dropsOnly_refl (h : J.Inv sizes chain L) {P : ℕ → Prop}
    (hP : ∀ b, J.Live b → ¬ P b) : J.DropsOnly sizes P J :=
  ⟨⟨chain, L, h⟩, .refl J, fun b => ⟨fun hb => ⟨hb, hP b hb⟩, And.left⟩, id,
    fun _ _ => id⟩

theorem Jit.DropsOnly.trans {P Q : ℕ → Prop} (h : J.DropsOnly sizes P J')
    (h' : J'.DropsOnly sizes Q J'') : J.DropsOnly sizes (fun b => P b ∨ Q b) J'' := by
  refine ⟨h'.inv, h.frame.trans h'.frame, fun b => ?_, h'.linksLive ∘ h.linksLive,
    fun s hs hslow => h'.slow s ?_ (h.slow s hs hslow)⟩
  · rw [h'.live_iff, h.live_iff, not_or, and_assoc]
  · rwa [h.frame.exits]

theorem Jit.DropsOnly.congr {P Q : ℕ → Prop} (h : J.DropsOnly sizes P J')
    (hiff : ∀ b, J.Live b → (P b ↔ Q b)) : J.DropsOnly sizes Q J' := by
  refine ⟨h.inv, h.frame, fun b => ?_, h.linksLive, h.slow⟩
  rw [h.live_iff]
  constructor
  · rintro ⟨hb, hP⟩
    exact ⟨hb, fun hQ => hP ((hiff b hb).mpr hQ)⟩
  · rintro ⟨hb, hQ⟩
    exact ⟨hb, fun hP => hQ ((hiff b hb).mp hP)⟩

theorem Jit.Inv.invalidate (h : J.Inv sizes chain L) (hb : J.Live b) :
    J.DropsOnly sizes (· = b) (J.invalidate sizes b) := by
  have hdrops := h.chained.drops h.recorded hb
  refine ⟨⟨_, _, hdrops.inv h hb⟩, hdrops.frame, fun x => hdrops.live_iff, fun hlive x hx => ?_,
    fun s hs hslow => ?_⟩
  · rw [hdrops.nblocks] at hx
    rw [hdrops.incoming, hdrops.valid]
    by_cases hxb : x = b
    · rw [if_pos hxb]
      exact fun hne => absurd rfl hne
    · rw [if_neg hxb, if_neg hxb]
      exact hlive x hx
  · rw [hdrops.jumpTarget_exit h hb hs, hslow]
    intro x hx
    obtain ⟨hlt, howner⟩ := h.linked_lt hb.1 hx
    exact h.site_ne hs hslow hlt (by simp [howner])

/-- One start of `invalidate_word`. -/
theorem Jit.Inv.invalidateStart (h : J.Inv sizes chain L) (a s : ℕ) :
    J.DropsOnly sizes (fun b => (J.blocks b).start = s ∧ a < s + 24 * (J.blocks b).n)
      (match J.lookup sizes s with
        | none => J
        | some b => if a < s + 24 * (J.blocks b).n then J.invalidate sizes b else J) := by
  cases hlookup : J.lookup sizes s with
  | none =>
      apply h.dropsOnly_refl
      rintro b hb ⟨hstart, -⟩
      exact h.chained.lookup_eq_none hlookup hb hstart
  | some b =>
      obtain ⟨hb, hstart⟩ := h.chained.lookup_eq_some_iff.mp hlookup
      dsimp only
      split_ifs with hlt
      · apply (h.invalidate hb).congr
        intro x hx
        constructor
        · rintro rfl
          exact ⟨hstart, hlt⟩
        · rintro ⟨hstart', -⟩
          exact h.chained.start_inj x b hx hb (hstart'.trans hstart.symm)
      · apply h.dropsOnly_refl
        rintro x hx ⟨hstart', hlt'⟩
        rw [h.chained.start_inj x b hx hb (hstart'.trans hstart.symm)] at hlt'
        exact hlt hlt'

theorem Jit.Inv.invalidateFrom (h : J.Inv sizes chain L) (a count s : ℕ) :
    J.DropsOnly sizes
      (fun b => ∃ k < count, (J.blocks b).start = s + 8 * k ∧
        a < (J.blocks b).start + 24 * (J.blocks b).n)
      (J.invalidateFrom sizes a count s) := by
  induction count generalizing J chain L s with
  | zero =>
      apply h.dropsOnly_refl
      rintro b hb ⟨k, hk, -⟩
      exact absurd hk (Nat.not_lt_zero k)
  | succ count ih =>
      have hstep := h.invalidateStart a s
      obtain ⟨chain', L', hinv⟩ := hstep.inv
      apply (hstep.trans (ih hinv (s + 8))).congr
      intro b hb
      rw [(hstep.frame.same b).start, (hstep.frame.same b).n]
      constructor
      · rintro (⟨hstart, hlt⟩ | ⟨k, hk, hstart, hlt⟩)
        · exact ⟨0, Nat.succ_pos _, hstart, hstart ▸ hlt⟩
        · exact ⟨k + 1, Nat.succ_lt_succ hk, by omega, hlt⟩
      · rintro ⟨k, hk, hstart, hlt⟩
        cases k with
        | zero => exact Or.inl ⟨hstart, by omega⟩
        | succ k => exact Or.inr ⟨k, Nat.lt_of_succ_lt_succ hk, by omega, hlt⟩

/-- `invalidate_word` drops the blocks over a word, and no others. -/
theorem Jit.Inv.invalidateWord (h : J.Inv sizes chain L) (w : ℕ) :
    J.DropsOnly sizes (fun b => (J.blocks b).Covers (8 * w)) (J.invalidateWord sizes w) := by
  apply (h.invalidateFrom (8 * w) _ _).congr
  intro b hb
  obtain ⟨haligned, hpos, hle, -⟩ := h.shaped b hb.1
  unfold jitMaxBlock at hle ⊢
  unfold Block.Covers
  constructor
  · rintro ⟨k, hk, hstart, hlt⟩
    refine ⟨?_, hlt⟩
    split_ifs at hk hstart <;> omega
  · rintro ⟨hstart, hlt⟩
    split_ifs with hwindow
    · exact ⟨((J.blocks b).start - (8 * w - 24 * 64 + 8)) / 8, by omega, by omega, hlt⟩
    · exact ⟨(J.blocks b).start / 8, by omega, by omega, hlt⟩

end BlockTable
end SubleqEmu
