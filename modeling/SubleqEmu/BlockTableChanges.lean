import SubleqEmu.BlockTableInvariant

/-!
# Flushing, making and linking

The invariant holds after each of the other changes to a block table.
-/

namespace SubleqEmu
namespace BlockTable

open IntrusiveList

variable {sizes : Sizes} {J : Jit} {chain : ℕ → List ℕ} {L : Links} {start site t l : ℕ}
  {made : Made}

/-! ## Flushing -/

def Links.none : Links := ⟨[], fun _ => [], fun _ => Option.none⟩

/-- An empty table. -/
theorem Jit.inv_of_empty (hnblocks : J.nblocks = 0) (hnlinks : J.nlinks = 0)
    (hhtab : ∀ h, J.htab h = Option.none) (hfree : J.freeLinks = Option.none)
    (hexits : J.exits = []) (hptr : J.codePtr = 0) : J.Inv sizes (fun _ => []) .none := by
  have hblock : ∀ b, ¬ b < J.nblocks := by
    rw [hnblocks]
    exact Nat.not_lt_zero
  have hlink : ∀ l, ¬ l < J.nlinks := by
    rw [hnlinks]
    exact Nat.not_lt_zero
  have hexit : ∀ s, s ∉ J.exits := by
    rw [hexits]
    exact fun s => List.not_mem_nil
  constructor
  · refine ⟨?_, hhtab, fun k b => ?_, fun b b' hb => absurd hb.1 (hblock b)⟩
    · rw [hnblocks]
      exact Nat.zero_le _
    · simp [Jit.Live, hblock b]
  · refine ⟨?_, hfree, fun b hb => absurd hb (hblock b), fun l => ?_,
      fun b hb => absurd hb (hblock b), fun l hl => absurd hl (hlink l)⟩
    · rw [hnlinks]
      exact Nat.zero_le _
    · simp [Links.none, hlink l]
  · exact ⟨fun l hl => absurd hl (hlink l), fun l hl => absurd hl (hlink l),
      fun l hl => absurd hl (hlink l), fun s hs => absurd hs (hexit s),
      fun b hb => absurd hb (hblock b)⟩
  · refine ⟨?_, fun b hb => absurd hb (hblock b), fun b hb => absurd hb (hblock b),
      fun s hs => absurd hs (hexit s), fun b hb => absurd hb (hblock b),
      fun s hs => absurd hs (hexit s), fun s hs => absurd hs (hexit s)⟩
    rw [hptr]
    exact Nat.zero_le _
  · exact fun b hb => absurd hb (hblock b)

theorem Jit.inv_flush (sizes : Sizes) (J : Jit) : J.flush.Inv sizes (fun _ => []) .none :=
  Jit.inv_of_empty rfl rfl (fun _ => rfl) rfl rfl rfl

theorem Jit.inv_initial (sizes : Sizes) (blocks : ℕ → Block) (links : ℕ → Link)
    (code : ℕ → BitVec 8) :
    (Jit.initial blocks links code).Inv sizes (fun _ => []) .none :=
  Jit.inv_of_empty rfl rfl (fun _ => rfl) rfl rfl rfl

/-! ## Making a block -/

def Links.insert (L : Links) (b : ℕ) : Links :=
  { L with incoming := Function.update L.incoming b [] }

section Insert

theorem Jit.live_insert_iff {b : ℕ} :
    (J.insert start made).Live b ↔ J.Live b ∨ b = J.nblocks := by
  unfold Jit.Live
  rw [Jit.lt_insert_iff]
  constructor
  · rintro ⟨hb | rfl, hvalid⟩
    · rw [Jit.blocks_insert_of_lt hb] at hvalid
      exact Or.inl ⟨hb, hvalid⟩
    · exact Or.inr rfl
  · rintro (⟨hb, hvalid⟩ | rfl)
    · rw [Jit.blocks_insert_of_lt hb]
      exact ⟨Or.inl hb, hvalid⟩
    · rw [Jit.blocks_insert_self]
      exact ⟨Or.inr rfl, rfl⟩

theorem Jit.hnext_insert :
    (J.insert start made).hnext = Function.update J.hnext J.nblocks (J.htab (hash start)) := by
  funext x
  show (Function.update J.blocks J.nblocks _ x).hnext = _
  by_cases hx : x = J.nblocks
  · rw [hx, Function.update_self, Function.update_self]
  · rw [Function.update_of_ne hx, Function.update_of_ne hx]
    rfl

theorem Jit.Chained.insert (h : J.Chained sizes chain) (hblocks : J.nblocks < sizes.maxBlocks)
    (hfresh : ∀ b, J.Live b → (J.blocks b).start ≠ start) :
    (J.insert start made).Chained sizes
      (Function.update chain (hash start) (J.nblocks :: chain (hash start))) := by
  have hnew : ∀ k, J.nblocks ∉ chain k := by
    intro k hmem
    exact Nat.lt_irrefl _ ((h.mem_iff k _).mp hmem).1.1
  have hself : ((J.insert start made).blocks J.nblocks).start = start := by
    rw [Jit.blocks_insert_self]
    rfl
  constructor
  · exact hblocks
  · intro k
    rw [Jit.hnext_insert]
    show Chain _ (Function.update J.htab (hash start) _ k) _
    by_cases hk : k = hash start
    · rw [hk, Function.update_self, Function.update_self]
      exact (h.list _).push (hnew _)
    · rw [Function.update_of_ne hk, Function.update_of_ne hk]
      apply (h.list k).congr
      intro x hx
      rw [Function.update_of_ne]
      rintro rfl
      exact hnew k hx
  · intro k b
    rw [Jit.live_insert_iff]
    by_cases hb : b = J.nblocks
    · rw [hb, hself]
      by_cases hk : k = hash start
      · simp [hk]
      · rw [Function.update_of_ne hk]
        simp [hnew k, Ne.symm hk]
    · have hold : J.Live b → (J.insert start made).blocks b = J.blocks b :=
        fun hlive => Jit.blocks_insert_of_lt hlive.1
      have hiff : (J.Live b ∨ b = J.nblocks) ∧ hash ((J.insert start made).blocks b).start = k ↔
          J.Live b ∧ hash (J.blocks b).start = k := by
        constructor
        · rintro ⟨hlive | heq, hk⟩
          · exact ⟨hlive, by rwa [hold hlive] at hk⟩
          · exact absurd heq hb
        · rintro ⟨hlive, hk⟩
          exact ⟨Or.inl hlive, by rwa [hold hlive]⟩
      rw [hiff, ← h.mem_iff]
      by_cases hk : k = hash start
      · rw [hk, Function.update_self, List.mem_cons]
        exact or_iff_right hb
      · rw [Function.update_of_ne hk]
  · intro b b' hb hb' hstart
    rcases Jit.live_insert_iff.mp hb with hlive | rfl <;>
      rcases Jit.live_insert_iff.mp hb' with hlive' | rfl
    · rw [Jit.blocks_insert_of_lt hlive.1, Jit.blocks_insert_of_lt hlive'.1] at hstart
      exact h.start_inj b b' hlive hlive' hstart
    · rw [Jit.blocks_insert_of_lt hlive.1, hself] at hstart
      exact absurd hstart (hfresh b hlive)
    · rw [Jit.blocks_insert_of_lt hlive'.1, hself] at hstart
      exact absurd hstart.symm (hfresh b' hlive')
    · rfl

theorem Jit.Recorded.insert (h : J.Recorded sizes L) :
    (J.insert start made).Recorded sizes (L.insert J.nblocks) := by
  refine ⟨h.nlinks_le, h.free, fun b hb => ?_, h.mem_free, fun b hb l => ?_, fun l hl b hb => ?_⟩
  · show Chain _ _ (Function.update L.incoming J.nblocks [] b)
    rcases Jit.lt_insert_iff.mp hb with hb | rfl
    · rw [Jit.blocks_insert_of_lt hb, Function.update_of_ne hb.ne]
      exact h.incoming b hb
    · rw [Jit.blocks_insert_self, Function.update_self]
      rfl
  · show l ∈ Function.update L.incoming J.nblocks [] b ↔ _
    rcases Jit.lt_insert_iff.mp hb with hb | rfl
    · rw [Function.update_of_ne hb.ne]
      exact h.mem_incoming b hb l
    · rw [Function.update_self]
      refine ⟨fun hmem => absurd hmem List.not_mem_nil, fun ⟨hl, howner⟩ => ?_⟩
      exact absurd (h.owner_lt l hl _ howner) (Nat.lt_irrefl _)
  · exact Jit.lt_insert_iff.mpr (Or.inl (h.owner_lt l hl b hb))

theorem Jit.Inv.patched_insert (h : J.Inv sizes chain L) :
    (J.insert start made).Patched L.owner := by
  have hold : ∀ s ∈ J.exits, jumpTarget (J.insert start made).code s = jumpTarget J.code s := by
    intro s hs
    have hle := h.laid.exit_le s hs
    apply jumpTarget_congr
    intro k hk
    exact Jit.code_insert_of_lt (by omega)
  refine ⟨fun l hl b hb => ?_, h.patched.site_inj, fun l hl b hb => ?_, fun s hs hnot => ?_,
    fun b hb hvalid => ?_⟩
  · exact Jit.mem_exits_insert.mpr (Or.inl (h.patched.site_mem l hl b hb))
  · rw [Jit.blocks_insert_of_lt (h.recorded.owner_lt l hl b hb), ← h.patched.linked l hl b hb]
    exact hold _ (h.patched.site_mem l hl b hb)
  · rcases Jit.mem_exits_insert.mp hs with hs | ⟨e, he, rfl⟩
    · rw [hold s hs]
      exact h.patched.slow s hs hnot
    · exact Jit.jumpTarget_insert_new he
  · rcases Jit.lt_insert_iff.mp hb with hb | rfl
    · have hentry := h.laid.entry_le b hb
      rw [Jit.blocks_insert_of_lt hb] at hvalid ⊢
      rw [Jit.code_insert_of_lt (by omega)]
      refine ⟨(h.patched.dropped b hb hvalid).1, ?_⟩
      rw [← (h.patched.dropped b hb hvalid).2]
      apply jumpTarget_congr
      intro k hk
      exact Jit.code_insert_of_lt (by omega)
    · rw [Jit.blocks_insert_self] at hvalid
      exact absurd hvalid nofun

theorem Jit.Inv.insert (h : J.Inv sizes chain L) (hblocks : J.nblocks < sizes.maxBlocks)
    (hroom : J.codePtr + codeSlack ≤ sizes.codeBytes)
    (hshaped : (J.newBlock start made).Shaped sizes)
    (hfresh : ∀ b, J.Live b → (J.blocks b).start ≠ start) :
    (J.insert start made).Inv sizes
      (Function.update chain (hash start) (J.nblocks :: chain (hash start)))
      (L.insert J.nblocks) := by
  refine ⟨h.chained.insert hblocks hfresh, h.recorded.insert, h.patched_insert,
    h.laid.insert start made hroom, fun b hb => ?_⟩
  rcases Jit.lt_insert_iff.mp hb with hb | rfl
  · rw [Jit.blocks_insert_of_lt hb]
    exact h.shaped b hb
  · rw [Jit.blocks_insert_self]
    exact hshaped

end Insert

/-! ## Linking -/

def Links.link (L : Links) (free : List ℕ) (l t : ℕ) : Links where
  free := free
  incoming := Function.update L.incoming t (l :: L.incoming t)
  owner := Function.update L.owner l (some t)

section Link

variable {b x nlinks : ℕ} {freeLinks : Option ℕ} {free : List ℕ}

/-- A slow exit is at no linked record. -/
theorem Jit.Inv.site_ne (h : J.Inv sizes chain L) (hsite : site ∈ J.exits)
    (hslow : jumpTarget J.code site = site + 4) (hx : x < J.nlinks) (howner : L.owner x ≠ none) :
    (J.links x).site ≠ site := by
  rintro rfl
  obtain ⟨b, hb⟩ := Option.ne_none_iff_exists'.mp howner
  rw [h.patched.linked x hx b hb] at hslow
  have hapart := h.laid.exit_entry _ hsite b (h.recorded.owner_lt x hx b hb)
  omega

theorem Jit.link_blocks (J : Jit) (l site t x : ℕ) :
    (J.blocks x).Same ((J.link l site t).blocks x) ∧
      ((J.link l site t).blocks x).valid = (J.blocks x).valid ∧
      ((J.link l site t).blocks x).hnext = (J.blocks x).hnext ∧
      ((J.link l site t).blocks x).incoming =
        (if x = t then some l else (J.blocks x).incoming) := by
  apply (Function.forall_update_iff J.blocks fun x blk => (J.blocks x).Same blk ∧
    blk.valid = (J.blocks x).valid ∧ blk.hnext = (J.blocks x).hnext ∧
    blk.incoming = (if x = t then some l else (J.blocks x).incoming)).mpr
  refine ⟨⟨⟨rfl, rfl, rfl, rfl, rfl, rfl⟩, rfl, rfl, (if_pos rfl).symm⟩, fun x hx => ?_⟩
  exact ⟨.refl _, rfl, rfl, (if_neg hx).symm⟩

/-- What stands for taking record `l` off the free list, or making it. -/
structure Jit.Takes (sizes : Sizes) (J : Jit) (L : Links) (l nlinks : ℕ)
    (freeLinks : Option ℕ) (free : List ℕ) : Prop where
  chain : Chain J.next freeLinks free
  mem_iff : ∀ x, x ∈ free ↔ x < J.nlinks ∧ L.owner x = Option.none ∧ x ≠ l
  lt_iff : ∀ x, x < nlinks ↔ x < J.nlinks ∨ x = l
  nlinks_le : nlinks ≤ sizes.maxLinks
  fresh : l < J.nlinks → L.owner l = Option.none

theorem Jit.Recorded.link (h : J.Recorded sizes L) (site : ℕ) (ht : t < J.nblocks)
    (htakes : J.Takes sizes L l nlinks freeLinks free) :
    (Jit.link { J with freeLinks := freeLinks, nlinks := nlinks } l site t).Recorded sizes
      (L.link free l t) := by
  have hnext : (Jit.link { J with freeLinks := freeLinks, nlinks := nlinks } l site t).next =
      Function.update J.next l (J.blocks t).incoming := by
    funext x
    show (Function.update J.links l _ x).next = _
    by_cases hx : x = l
    · rw [hx, Function.update_self, Function.update_self]
    · rw [Function.update_of_ne hx, Function.update_of_ne hx]
      rfl
  have hnot : ∀ b < J.nblocks, l ∉ L.incoming b := by
    intro b hb hmem
    obtain ⟨hl, howner⟩ := (h.mem_incoming b hb l).mp hmem
    rw [htakes.fresh hl] at howner
    exact absurd howner nofun
  refine ⟨htakes.nlinks_le, ?_, fun b hb => ?_, fun x => ?_, fun b hb x => ?_, fun x hx b hb => ?_⟩
  · rw [hnext]
    apply htakes.chain.congr
    intro x hx
    exact Function.update_of_ne ((htakes.mem_iff x).mp hx).2.2 _ _
  · rw [hnext, (Jit.link_blocks _ l site t b).2.2.2]
    show Chain _ _ (Function.update L.incoming t _ b)
    by_cases hbt : b = t
    · rw [if_pos hbt, hbt, Function.update_self]
      exact (h.incoming t ht).push (hnot t ht)
    · rw [if_neg hbt, Function.update_of_ne hbt]
      apply (h.incoming b hb).congr
      intro x hx
      rw [Function.update_of_ne]
      rintro rfl
      exact hnot b hb hx
  · show x ∈ free ↔ x < nlinks ∧ Function.update L.owner l (some t) x = _
    rw [htakes.mem_iff, htakes.lt_iff]
    by_cases hx : x = l
    · rw [hx, Function.update_self]
      simp
    · rw [Function.update_of_ne hx]
      simp [hx]
  · show x ∈ Function.update L.incoming t _ b ↔ x < nlinks ∧
      Function.update L.owner l (some t) x = some b
    rw [htakes.lt_iff]
    by_cases hbt : b = t
    · rw [hbt, Function.update_self, List.mem_cons, h.mem_incoming t ht]
      by_cases hx : x = l
      · rw [hx, Function.update_self]
        simp
      · rw [Function.update_of_ne hx]
        simp [hx]
    · rw [Function.update_of_ne hbt]
      by_cases hx : x = l
      · rw [hx, Function.update_self]
        simp [hnot b hb, Ne.symm hbt]
      · rw [Function.update_of_ne hx, h.mem_incoming b hb]
        simp [hx]
  · have howner : Function.update L.owner l (some t) x = some b := hb
    have hlt : x < nlinks := hx
    show b < J.nblocks
    by_cases hx : x = l
    · rw [hx, Function.update_self] at howner
      rwa [← Option.some.inj howner]
    · rw [Function.update_of_ne hx] at howner
      exact h.owner_lt x (((htakes.lt_iff x).mp hlt).resolve_right hx) b howner

theorem Jit.Inv.patched_link (h : J.Inv sizes chain L) (ht : t < J.nblocks)
    (hsite : site ∈ J.exits) (hslow : jumpTarget J.code site = site + 4)
    (htakes : J.Takes sizes L l nlinks freeLinks free) :
    (Jit.link { J with freeLinks := freeLinks, nlinks := nlinks } l site t).Patched
      (L.link free l t).owner := by
  obtain ⟨J', hJ'⟩ : ∃ J', J' =
    Jit.link { J with freeLinks := freeLinks, nlinks := nlinks } l site t := ⟨_, rfl⟩
  have hsame : ∀ x, (J.blocks x).Same (J'.blocks x) ∧
      (J'.blocks x).valid = (J.blocks x).valid := by
    intro x
    rw [hJ']
    obtain ⟨hsame, hvalid, -⟩ := Jit.link_blocks
      { J with freeLinks := freeLinks, nlinks := nlinks } l site t x
    exact ⟨hsame, hvalid⟩
  have hself : (J'.links l).site = site := by
    rw [hJ']
    show (Function.update J.links l _ l).site = site
    rw [Function.update_self]
  have hold : ∀ x, x ≠ l → (J'.links x).site = (J.links x).site := by
    intro x hx
    rw [hJ']
    exact congrArg Link.site (Function.update_of_ne hx _ _)
  have howner : ∀ x, x ≠ l → (L.link free l t).owner x = L.owner x :=
    fun x hx => Function.update_of_ne hx _ _
  have hlt : ∀ x, x < J'.nlinks → x ≠ l → x < J.nlinks := by
    intro x hx hne
    rw [hJ'] at hx
    exact ((htakes.lt_iff x).mp hx).resolve_right hne
  have hfar : ∀ a, a < site ∨ site + 4 ≤ a → J'.code a = J.code a := by
    intro a ha
    rw [hJ']
    exact patchRel32_of_apart ha
  have hexit : ∀ s ∈ J.exits, s ≠ site → jumpTarget J'.code s = jumpTarget J.code s := by
    intro s hs hne
    have hapart := h.laid.exits_apart s hs site hsite hne
    apply jumpTarget_congr
    intro k hk
    exact hfar _ (by omega)
  have hexits : J'.exits = J.exits := by rw [hJ']; rfl
  have hnblocks : J'.nblocks = J.nblocks := by rw [hJ']; rfl
  rw [← hJ']
  refine ⟨fun x hx b hb => ?_, fun x hx y hy hxo hyo heq => ?_, fun x hx b hb => ?_,
    fun s hs hnot => ?_, fun b hb hvalid => ?_⟩
  · rw [hexits]
    by_cases hxl : x = l
    · rwa [hxl, hself]
    · rw [howner x hxl] at hb
      rw [hold x hxl]
      exact h.patched.site_mem x (hlt x hx hxl) b hb
  · by_cases hxl : x = l <;> by_cases hyl : y = l
    · rw [hxl, hyl]
    · rw [hxl, hself, hold y hyl] at heq
      rw [howner y hyl] at hyo
      exact absurd heq.symm (h.site_ne hsite hslow (hlt y hy hyl) hyo)
    · rw [hyl, hself, hold x hxl] at heq
      rw [howner x hxl] at hxo
      exact absurd heq (h.site_ne hsite hslow (hlt x hx hxl) hxo)
    · rw [hold x hxl, hold y hyl] at heq
      rw [howner x hxl] at hxo
      rw [howner y hyl] at hyo
      exact h.patched.site_inj x (hlt x hx hxl) y (hlt y hy hyl) hxo hyo heq
  · by_cases hxl : x = l
    · have hbt : t = b := by
        have hb' : Function.update L.owner l (some t) l = some b := hxl ▸ hb
        rw [Function.update_self] at hb'
        exact Option.some.inj hb'
      have hentry := h.laid.entry_lt ht
      have hsmall := h.laid.exit_lt hsite
      rw [hxl, hself, ← hbt, (hsame t).1.entry, hJ']
      have htarget : (J.blocks t).entry < 2 ^ 31 := by omega
      exact jumpTarget_patchRel32 (by omega) htarget
    · rw [howner x hxl] at hb
      have hne := h.site_ne hsite hslow (hlt x hx hxl) (by simp [hb])
      rw [hold x hxl, (hsame b).1.entry,
        hexit _ (h.patched.site_mem x (hlt x hx hxl) b hb) hne]
      exact h.patched.linked x (hlt x hx hxl) b hb
  · rw [hexits] at hs
    have hne : s ≠ site := by
      rintro rfl
      refine hnot l ?_ ?_ hself
      · rw [hJ']
        exact (htakes.lt_iff l).mpr (Or.inr rfl)
      · exact (congrArg (· ≠ Option.none) (Function.update_self l (some t) L.owner)).mpr nofun
    rw [hexit s hs hne]
    apply h.patched.slow s hs
    intro x hx hxo
    have hxl : x ≠ l := by
      rintro rfl
      exact hxo (htakes.fresh hx)
    have hnot' := hnot x (by rw [hJ']; exact (htakes.lt_iff x).mpr (Or.inl hx))
      (by rwa [howner x hxl])
    rwa [hold x hxl] at hnot'
  · rw [hnblocks] at hb
    rw [(hsame b).2] at hvalid
    obtain ⟨hentry, htarget⟩ := h.patched.dropped b hb hvalid
    have hapart := h.laid.exit_entry site hsite b hb
    rw [(hsame b).1.entry, (hsame b).1.invStub, hfar _ (by omega)]
    refine ⟨hentry, ?_⟩
    rw [← htarget]
    apply jumpTarget_congr
    intro k hk
    exact hfar _ (by omega)

theorem Jit.Inv.link (h : J.Inv sizes chain L) (ht : t < J.nblocks)
    (hsite : site ∈ J.exits) (hslow : jumpTarget J.code site = site + 4)
    (htakes : J.Takes sizes L l nlinks freeLinks free) :
    (Jit.link { J with freeLinks := freeLinks, nlinks := nlinks } l site t).Inv sizes chain
      (L.link free l t) := by
  obtain ⟨J', hJ'⟩ : ∃ J' : Jit, J' = { J with freeLinks := freeLinks, nlinks := nlinks } :=
    ⟨_, rfl⟩
  have hblocks : ∀ x, (J.blocks x).Same ((J'.link l site t).blocks x) ∧
      ((J'.link l site t).blocks x).valid = (J.blocks x).valid ∧
      ((J'.link l site t).blocks x).hnext = (J.blocks x).hnext := by
    intro x
    obtain ⟨hsame, hvalid, hhnext, -⟩ := Jit.link_blocks J' l site t x
    rw [hJ'] at hsame hvalid hhnext ⊢
    exact ⟨hsame, hvalid, hhnext⟩
  have hrecorded := h.recorded.link site ht htakes
  have hpatched := h.patched_link ht hsite hslow htakes
  rw [← hJ'] at hrecorded hpatched ⊢
  have hfields : (J'.link l site t).nblocks = J.nblocks ∧ (J'.link l site t).htab = J.htab ∧
      (J'.link l site t).codePtr = J.codePtr ∧ (J'.link l site t).exits = J.exits := by
    rw [hJ']
    exact ⟨rfl, rfl, rfl, rfl⟩
  obtain ⟨hnblocks, hhtab, hptr, hexits⟩ := hfields
  have hlive : ∀ x, (J'.link l site t).Live x ↔ J.Live x := by
    intro x
    rw [Jit.Live, Jit.Live, hnblocks, (hblocks x).2.1]
  refine ⟨⟨?_, fun k => ?_, fun k x => ?_, fun x y hx hy hstart => ?_⟩, hrecorded, hpatched,
    h.laid.congr hptr hexits hnblocks fun x => ⟨(hblocks x).1.entry, (hblocks x).1.invStub⟩,
    fun x hx => ?_⟩
  · rw [hnblocks]
    exact h.chained.nblocks_le
  · rw [hhtab]
    exact (h.chained.list k).congr fun x hx => (hblocks x).2.2
  · rw [h.chained.mem_iff, hlive, (hblocks x).1.start]
  · rw [(hblocks x).1.start, (hblocks y).1.start] at hstart
    exact h.chained.start_inj x y ((hlive x).mp hx) ((hlive y).mp hy) hstart
  · rw [hnblocks] at hx
    obtain ⟨haligned, hpos, hle, hend⟩ := h.shaped x hx
    have hsame := (hblocks x).1
    exact ⟨by rwa [hsame.start], by rwa [hsame.n], by rwa [hsame.n],
      by rwa [hsame.start, hsame.n]⟩

end Link

theorem Jit.Inv.linkTo (h : J.Inv sizes chain L) (ht : t < J.nblocks)
    (hsite : site ∈ J.exits) (hslow : jumpTarget J.code site = site + 4) :
    ∃ L', (J.linkTo sizes site t).Inv sizes chain L' := by
  unfold Jit.linkTo
  have hfree := h.recorded.free
  cases hhead : J.freeLinks with
  | some l =>
      cases hlist : L.free with
      | nil =>
          rw [hhead, hlist] at hfree
          exact absurd hfree nofun
      | cons y free =>
          rw [hhead, hlist] at hfree
          have hnodup := List.nodup_cons.mp hfree.nodup
          obtain ⟨heq, hrest⟩ := hfree
          obtain rfl := Option.some.inj heq
          have hl := (h.recorded.mem_free l).mp (by rw [hlist]; exact List.mem_cons_self)
          suffices htakes : J.Takes sizes L l J.nlinks (J.next l) free from
            ⟨_, h.link ht hsite hslow htakes⟩
          refine ⟨hrest, fun x => ?_, fun x => ?_, h.recorded.nlinks_le, fun _ => hl.2⟩
          · rw [← and_assoc, ← h.recorded.mem_free, hlist, List.mem_cons]
            constructor
            · intro hx
              refine ⟨Or.inr hx, ?_⟩
              rintro rfl
              exact hnodup.1 hx
            · rintro ⟨rfl | hx, hne⟩
              · exact absurd rfl hne
              · exact hx
          · constructor
            · exact Or.inl
            · rintro (hx | rfl)
              · exact hx
              · exact hl.1
  | none =>
      dsimp only
      have hnil : L.free = [] := by
        cases hlist : L.free with
        | nil => rfl
        | cons y free =>
            rw [hhead, hlist] at hfree
            exact absurd hfree.1 nofun
      by_cases hroom : J.nlinks < sizes.maxLinks
      · rw [if_pos hroom]
        suffices htakes : J.Takes sizes L J.nlinks (J.nlinks + 1) none [] from
          ⟨_, h.link ht hsite hslow htakes⟩
        refine ⟨rfl, fun x => ?_, fun x => ?_, hroom, fun hlt => absurd hlt (Nat.lt_irrefl _)⟩
        · have hmem := h.recorded.mem_free x
          rw [hnil] at hmem
          refine ⟨fun hx => absurd hx List.not_mem_nil, ?_⟩
          rintro ⟨hx, howner, -⟩
          exact hmem.mpr ⟨hx, howner⟩
        · omega
      · rw [if_neg hroom]
        exact ⟨L, h⟩

end BlockTable
end SubleqEmu
