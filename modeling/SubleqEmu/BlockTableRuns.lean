import SubleqEmu.BlockTableWords

/-!
# Runs of a block table

Every step of `jit_run` keeps the invariant, and so do runs from an empty table, with
flushes, links and dropped blocks in any order.
-/

namespace SubleqEmu
namespace BlockTable

open IntrusiveList

variable {sizes : Sizes} {J J' : Jit} {chain : ℕ → List ℕ} {L : Links} {start site t : ℕ}
  {made : Made} {s s' : State}

/-- The blocks waiting to be checked are no part of the table. -/
theorem Jit.Inv.withPending (h : J.Inv sizes chain L) (pending : List Pending) :
    Jit.Inv sizes { J with pending := pending } chain L := by
  obtain ⟨⟨c₁, c₂, c₃, c₄⟩, ⟨r₁, r₂, r₃, r₄, r₅, r₆⟩, ⟨p₁, p₂, p₃, p₄, p₅⟩,
    ⟨l₁, l₂, l₃, l₄, l₅, l₆, l₇⟩, hshaped⟩ := h
  exact ⟨⟨c₁, c₂, c₃, c₄⟩, ⟨r₁, r₂, r₃, r₄, r₅, r₆⟩, ⟨p₁, p₂, p₃, p₄, p₅⟩,
    ⟨l₁, l₂, l₃, l₄, l₅, l₆, l₇⟩, hshaped⟩

/-! ## Checking blocks -/

theorem Jit.Inv.invalidateWords (h : J.Inv sizes chain L) (words : List ℕ) :
    J.DropsOnly sizes (fun b => ∃ w ∈ words, (J.blocks b).Covers (8 * w))
      (J.invalidateWords sizes words) := by
  induction words generalizing J chain L with
  | nil =>
      apply h.dropsOnly_refl
      rintro b hb ⟨w, hw, -⟩
      exact absurd hw List.not_mem_nil
  | cons w words ih =>
      have hstep := h.invalidateWord w
      obtain ⟨chain', L', hinv⟩ := hstep.inv
      apply (hstep.trans (ih hinv)).congr
      intro b hb
      simp only [Block.Covers, (hstep.frame.same b).start, (hstep.frame.same b).n,
        List.mem_cons, exists_eq_or_imp]

/-- None of the blocks that the loop of `revalidate` finds changed has a static field
in a block. -/
def Jit.Spares (sizes : Sizes) (mem : Contents) (min : ℕ) (blk : Block) : List Pending → Jit → Prop
  | [], _ => True
  | p :: rest, J =>
      p.stamp ≤ min →
        if J.passes mem p.blk then Jit.Spares sizes mem min blk rest J
        else
          (∀ w ∈ (J.blocks p.blk).staticWords, ¬ blk.Covers (8 * w)) ∧
            Jit.Spares sizes mem min blk rest
              (J.invalidateWords sizes (J.blocks p.blk).staticWords)

theorem Jit.spares_congr {mem : Contents} {min : ℕ} {blk blk' : Block} (h : blk.Same blk')
    (list : List Pending) (J : Jit) :
    J.Spares sizes mem min blk' list ↔ J.Spares sizes mem min blk list := by
  induction list generalizing J with
  | nil => rfl
  | cons p rest ih => simp only [Jit.Spares, ih, Block.Covers, h.start, h.n]

theorem Jit.Inv.revalidateFrom (h : J.Inv sizes chain L) (mem : Contents) (min : ℕ)
    (list : List Pending) :
    ∃ J' pending, J.DropsOnly sizes
        (fun b => ¬ J.Spares sizes mem min (J.blocks b) list) J' ∧
      J.revalidateFrom sizes mem min list = { J' with pending := pending } := by
  induction list generalizing J chain L with
  | nil => exact ⟨J, [], h.dropsOnly_refl fun b hb => not_not.mpr trivial, rfl⟩
  | cons p rest ih =>
      rw [Jit.revalidateFrom]
      by_cases hstamp : p.stamp ≤ min
      · rw [if_pos hstamp]
        by_cases hpasses : J.passes mem p.blk
        · obtain ⟨J', pending, hdrops, heq⟩ := ih h
          rw [if_pos hpasses]
          refine ⟨J', pending, hdrops.congr fun b hb => ?_, heq⟩
          simp only [Jit.Spares, hstamp, hpasses, if_true, true_implies]
        · have hstep := h.invalidateWords (J.blocks p.blk).staticWords
          obtain ⟨chain', L', hinv⟩ := hstep.inv
          obtain ⟨J', pending, hdrops, heq⟩ := ih hinv
          rw [if_neg hpasses]
          refine ⟨J', pending, (hstep.trans hdrops).congr fun b hb => ?_, heq⟩
          simp only [Jit.Spares, hstamp, hpasses, true_implies, Bool.false_eq_true, if_false,
            not_and_or, Jit.spares_congr (hstep.frame.same b), not_forall, not_not, exists_prop]
      · rw [if_neg hstamp]
        refine ⟨J, p :: rest, h.dropsOnly_refl fun b hb => not_not.mpr fun hle => ?_, rfl⟩
        exact absurd hle hstamp

/-! ## Steps -/

/-- The table is in order, and an exit to be linked is still slow. -/
structure State.Inv (sizes : Sizes) (s : State) : Prop where
  table : ∃ chain L, s.jit.Inv sizes chain L
  waiting : ∀ blk exit, s.point = .waiting blk exit → blk < s.jit.nblocks ∧
    ∀ site gen, exit = some (site, gen) → gen = s.jit.flushes →
      site ∈ s.jit.exits ∧ jumpTarget s.jit.code site = site + 4

theorem State.inv_initial (sizes : Sizes) (blocks : ℕ → Block) (links : ℕ → Link)
    (code : ℕ → BitVec 8) : (State.initial blocks links code).Inv sizes :=
  ⟨⟨_, _, Jit.inv_initial sizes blocks links code⟩, nofun⟩

/-- Blocks were dropped, and perhaps some that waited were checked. -/
theorem State.Inv.drops (h : s.Inv sizes) {P : ℕ → Prop} (hdrops : s.jit.DropsOnly sizes P J')
    (pending : List Pending) (hjit : s'.jit = { J' with pending := pending })
    (hpoint : s'.point = s.point) : s'.Inv sizes := by
  obtain ⟨chain, L, hinv⟩ := hdrops.inv
  refine ⟨⟨chain, L, ?_⟩, fun blk exit hwaiting => ?_⟩
  · rw [hjit]
    exact hinv.withPending pending
  · rw [hpoint] at hwaiting
    obtain ⟨hblk, hexit⟩ := h.waiting blk exit hwaiting
    rw [hjit]
    refine ⟨?_, fun site gen heq hgen => ?_⟩
    · show blk < J'.nblocks
      rwa [hdrops.frame.nblocks]
    · have hgen' : gen = s.jit.flushes := hgen.trans hdrops.frame.flushes
      obtain ⟨hsite, hslow⟩ := hexit site gen heq hgen'
      refine ⟨?_, hdrops.slow site hsite hslow⟩
      show site ∈ J'.exits
      rwa [hdrops.frame.exits]

theorem Sizes.codeSlack_le (sizes : Sizes) : codeSlack ≤ sizes.codeBytes := by
  have hle := sizes.le_maxBlocks
  unfold codeSlack Sizes.codeBytes
  omega

/-- A block where there is none. -/
theorem Jit.Inv.make (h : J.Inv sizes chain L) (htranslates : sizes.Translates start)
    (hend : start + 24 * made.n ≤ sizes.memSize) (hnone : J.lookup sizes start = none) :
    ∃ chain' L', (J.make sizes start made).Inv sizes chain' L' := by
  have hshaped : ∀ J : Jit, (J.newBlock start made).Shaped sizes :=
    fun J => ⟨htranslates.1, made.n_pos, made.n_le, hend⟩
  unfold Jit.make
  split_ifs with hflush
  · refine ⟨_, _, (Jit.inv_flush sizes J).insert ?_ ?_ (hshaped _) ?_⟩
    · have hle := sizes.le_maxBlocks
      show 0 < sizes.maxBlocks
      omega
    · have hslack := sizes.codeSlack_le
      rwa [← Nat.zero_add codeSlack] at hslack
    · intro b hb
      exact absurd hb.1 (Nat.not_lt_zero b)
  · simp only [Jit.mustFlush, Bool.or_eq_true, decide_eq_true_eq, beq_iff_eq, not_or] at hflush
    have hle := h.chained.nblocks_le
    have hptr := h.laid.codePtr_le
    exact ⟨_, _, h.insert (by omega) (by omega) (hshaped _) fun b hb =>
      h.chained.lookup_eq_none hnone hb⟩

/-- An exit that is slow stays so if nothing is flushed. -/
theorem Jit.Inv.slow_insert (h : J.Inv sizes chain L) (start : ℕ) (made : Made)
    (hsite : site ∈ J.exits) (hslow : jumpTarget J.code site = site + 4) :
    site ∈ (J.insert start made).exits ∧
      jumpTarget (J.insert start made).code site = site + 4 := by
  have hle := h.laid.exit_le site hsite
  refine ⟨Jit.mem_exits_insert.mpr (Or.inl hsite), ?_⟩
  rw [← hslow]
  apply jumpTarget_congr
  intro k hk
  exact Jit.code_insert_of_lt (by omega)

theorem State.Inv.translate (h : s.Inv sizes) {exit : Option (ℕ × ℕ)}
    (hnone : s.jit.lookup sizes start = none)
    (hexit : ∀ site gen, exit = some (site, gen) → gen = s.jit.flushes ∧
      site ∈ s.jit.exits ∧ jumpTarget s.jit.code site = site + 4)
    (hstep : s.translate sizes start made exit = some s') : s'.Inv sizes := by
  obtain ⟨chain, L, hinv⟩ := h.table
  unfold State.translate at hstep
  split_ifs at hstep with htranslates hend
  · obtain rfl := Option.some.inj hstep
    refine ⟨hinv.make htranslates hend.1 hnone, fun blk exit' hwaiting => ?_⟩
    obtain ⟨rfl, rfl⟩ := Point.waiting.inj hwaiting
    refine ⟨Nat.lt_succ_self _, fun site gen heq hgen => ?_⟩
    obtain ⟨rfl, hsite, hslow⟩ := hexit site gen heq
    unfold Jit.make at hgen ⊢
    split_ifs with hflush
    · rw [if_pos hflush] at hgen
      exact absurd hgen (Nat.succ_ne_self _).symm
    · exact hinv.slow_insert start _ hsite hslow
  · obtain rfl := Option.some.inj hstep
    exact h

theorem State.Inv.step (h : s.Inv sizes) {event : Event} (hstep : s.step sizes event = some s') :
    s'.Inv sizes := by
  obtain ⟨chain, L, hinv⟩ := h.table
  cases event with
  | tick =>
      obtain rfl := Option.some.inj hstep
      exact ⟨h.table, h.waiting⟩
  | hit w =>
      rw [State.step] at hstep
      split_ifs at hstep with hcan
      obtain rfl := Option.some.inj hstep
      exact h.drops (hinv.invalidateWord w) (s.jit.invalidateWord sizes w).pending rfl rfl
  | overflow =>
      rw [State.step] at hstep
      split_ifs at hstep with htop
      obtain rfl := Option.some.inj hstep
      refine ⟨⟨_, _, Jit.inv_flush sizes s.jit⟩, fun blk exit hwaiting => ?_⟩
      rw [htop] at hwaiting
      exact absurd hwaiting nofun
  | revalidate mem others =>
      obtain rfl := Option.some.inj hstep
      obtain ⟨J', pending, hdrops, heq⟩ := hinv.revalidateFrom mem
        (min (if s.point = .top then s.epoch else s.quiet) others) s.jit.pending
      exact h.drops hdrops pending heq rfl
  | enter eip made =>
      rw [State.step] at hstep
      split_ifs at hstep with htop
      cases hlookup : s.jit.lookup sizes eip with
      | some b =>
          rw [hlookup] at hstep
          obtain rfl := Option.some.inj hstep
          exact h
      | none =>
          rw [hlookup] at hstep
          exact h.translate hlookup (fun site gen heq => absurd heq.symm (Option.some_ne_none _))
            hstep
  | leave site eip made =>
      rw [State.step] at hstep
      split_ifs at hstep with hcan
      obtain ⟨htop, hsite, hslow⟩ := hcan
      cases hlookup : s.jit.lookup sizes eip with
      | some t =>
          rw [hlookup] at hstep
          obtain rfl := Option.some.inj hstep
          have ht := (hinv.chained.lookup_eq_some_iff.mp hlookup).1
          obtain ⟨L', hlinked⟩ := hinv.linkTo ht.1 hsite hslow
          refine ⟨⟨chain, L', hlinked⟩, fun blk exit hwaiting => ?_⟩
          rw [htop] at hwaiting
          exact absurd hwaiting nofun
      | none =>
          rw [hlookup] at hstep
          apply h.translate hlookup _ hstep
          intro site' gen heq
          obtain ⟨rfl, rfl⟩ := Prod.mk.inj (Option.some.inj heq)
          exact ⟨rfl, hsite, hslow⟩
  | ready =>
      rw [State.step] at hstep
      cases hpoint : s.point with
      | top =>
          rw [hpoint] at hstep
          exact absurd hstep nofun
      | waiting blk exit =>
          rw [hpoint] at hstep
          obtain ⟨hblk, hexit⟩ := h.waiting blk exit hpoint
          dsimp only at hstep
          split_ifs at hstep with hroom
          obtain rfl := Option.some.inj hstep
          have hpushed := hinv.withPending (s.jit.pending ++ [⟨blk, s.epoch + 1⟩])
          refine ⟨?_, nofun⟩
          cases exit with
          | none => exact ⟨chain, L, hpushed⟩
          | some exit =>
              obtain ⟨site, gen⟩ := exit
              dsimp only
              split_ifs with hgen
              · obtain ⟨hsite, hslow⟩ := hexit site gen rfl hgen
                obtain ⟨L', hlinked⟩ := hpushed.linkTo hblk hsite hslow
                exact ⟨chain, L', hlinked⟩
              · exact ⟨chain, L, hpushed⟩

theorem State.Inv.run (h : s.Inv sizes) {events : List Event}
    (hrun : s.run sizes events = some s') : s'.Inv sizes := by
  induction events generalizing s with
  | nil =>
      obtain rfl := Option.some.inj hrun
      exact h
  | cons event events ih =>
      obtain ⟨s₁, hstep, hrest⟩ := Option.bind_eq_some_iff.mp hrun
      exact ih (h.step hstep) hrest

end BlockTable
end SubleqEmu
