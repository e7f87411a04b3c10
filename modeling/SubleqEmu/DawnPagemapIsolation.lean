import SubleqEmu.DawnPagemapInvariant

/-!
# Dawn's pages and everybody else's

The image goes to a window of fixed size at the module, whatever the module's
own size; the pages after it come from the allocator.  At the end no page is
free, so a page of the window that was free at the start has gone to somebody.
Dawn's pages are apart from each other and from all others exactly when no
page of the window past the module's end is free at the start, of the bitmap
or of the kernel.
-/

namespace SubleqEmu
namespace DawnPagemap

open PageAllocator PageTable

/-! ## The translator -/

section Translator

variable {s₀ : Pmm} {pml4 : Frame} {T : BitVec 64 → Option Page → Prop}
  {m : Machine}

theorem Ready.jitOsAlloc (hm : Ready s₀ pml4 T m) {bytes : ℕ} (hbytes : 0 < bytes) :
    Ready s₀ pml4 T (DawnPagemap.jitOsAlloc bytes m).2 := by
  refine hm.kmalloc .translator ?_
  unfold pageSize
  omega

theorem Ready.jitOsAllocs (hm : Ready s₀ pml4 T m) (sizes : List ℕ)
    (hsizes : ∀ bytes ∈ sizes, 0 < bytes) :
    Ready s₀ pml4 T (DawnPagemap.jitOsAllocs sizes m).2 := by
  induction sizes generalizing m with
  | nil => exact hm
  | cons bytes sizes ih =>
      exact ih (hm.jitOsAlloc (hsizes bytes List.mem_cons_self))
        fun other hother => hsizes other (List.mem_cons_of_mem _ hother)

theorem Ready.jitInitCpus (hm : Ready s₀ pml4 T m) {maxBlocks n : ℕ}
    (hblocks : 0 < maxBlocks) :
    Ready s₀ pml4 T (DawnPagemap.jitInitCpus maxBlocks n m).2 := by
  induction n generalizing m with
  | zero => exact hm
  | succ n ih =>
      rw [DawnPagemap.jitInitCpus]
      have h₁ := hm.jitOsAlloc (by decide : 0 < sizeofJitCpu)
      cases hcpu : DawnPagemap.jitOsAlloc sizeofJitCpu m with
      | mk r m₁ =>
      rw [hcpu] at h₁
      cases r with
      | none => exact h₁
      | some _ =>
      simp only
      have h₂ := h₁.jitOsAllocs [512 * maxBlocks,
        maxBlocks * sizeofJitBlock, 2 * maxBlocks * sizeofJitLink,
        16 * maxBlocks * 8, htabBytes] (by
          simp [sizeofJitBlock, sizeofJitLink, htabBytes, hblocks])
      cases hall : DawnPagemap.jitOsAllocs [512 * maxBlocks,
          maxBlocks * sizeofJitBlock, 2 * maxBlocks * sizeofJitLink,
          16 * maxBlocks * 8, htabBytes] m₁ with
      | mk ok m₂ =>
      rw [hall] at h₂
      cases ok with
      | false => exact h₂
      | true => exact ih h₂

theorem Ready.jitInit (hm : Ready s₀ pml4 T m) (msize n maxBytes : ℕ) :
    Ready s₀ pml4 T (DawnPagemap.jitInit msize n maxBytes m).2 := by
  unfold DawnPagemap.jitInit
  simp only
  split_ifs with hfixed hblocks
  · exact hm
  · exact hm
  have h₁ := hm.jitOsAllocs [(msize / 64 + 15) / 8 * 8 +
    (msize / 4096 + 1), (msize / 64 + 15) / 8 * 8] (by simp)
  split
  next m₁ hall =>
    rw [hall] at h₁
    exact h₁
  next m₁ hall =>
    rw [hall] at h₁
    have h₂ := h₁.jitInitCpus (n := min n jitMaxCpus) (lt_of_lt_of_le
      (by norm_num : 0 < 4096) (not_lt.mp hblocks))
    split
    next m₂ hcpus =>
      rw [hcpus] at h₂
      exact h₂
    next m₂ hcpus =>
      rw [hcpus] at h₂
      exact h₂

theorem Ready.setUpTranslator (hm : Ready s₀ pml4 T m) (info : DawnInfo) :
    Ready s₀ pml4 T (DawnPagemap.setUpTranslator info m).2 :=
  hm.jitInit _ _ _

end Translator

/-! ## The image -/

/-- Where the walk of an address of the lower half may lead: for an address in
the image to its page of the window, after it to the page allocated for it. -/
def DawnTranslation (boot : BootInfo) (info : DawnInfo)
    (given : List (Owner × Range)) (v : BitVec 64) (x : Option Page) : Prop :=
  v.getLsbD 47 = false → ∀ page, x = some page →
    ((v.extractLsb' 12 36).toNat < imagePages ∧
      page = .page4k (windowFrame boot info (v.extractLsb' 12 36).toNat)) ∨
    ∃ k r, (v.extractLsb' 12 36).toNat = imagePages + k ∧ (.dawn k, r) ∈ given ∧
      r.length = 1 ∧ page = .page4k (BitVec.ofNat 40 r.start)

section Image

variable {s₀ : Pmm} {pml4 : Frame} {T : BitVec 64 → Option Page → Prop}
  {m : Machine} {boot : BootInfo} {info : DawnInfo}

theorem DawnTranslation.mono {given given' : List (Owner × Range)}
    (hsubset : given ⊆ given') {v : BitVec 64} {x : Option Page}
    (h : DawnTranslation boot info given v x) :
    DawnTranslation boot info given' v x := by
  intro hv page hpage
  rcases h hv page hpage with himage | ⟨k, r, hk, hr, hlength, rfl⟩
  · exact Or.inl himage
  · exact Or.inr ⟨k, r, hk, hsubset hr, hlength, rfl⟩

theorem extractLsb'_pageAddr {i : ℕ} (hi : i < 2 ^ 36) :
    ((BitVec.ofNat 64 (i * pageSize)).extractLsb' 12 36).toNat = i := by
  rw [BitVec.extractLsb'_toNat, BitVec.toNat_ofNat, Nat.shiftRight_eq_div_pow]
  unfold pageSize
  omega

theorem imagePages_eq : imagePages = 65536 := by
  norm_num [imagePages, dawnImageSize, pageSize]

theorem Ready.mapImage (boot : BootInfo) (info : DawnInfo) (hm : Ready s₀ pml4 LowerHalfEmpty m) :
    Ready s₀ pml4 (DawnTranslation boot info [])
      (DawnPagemap.mapPages pml4 (dawnImageSize / pageSize)
        (ramdiskLoc (boot.hhdm.getD 0) info) 0 m) := by
  refine (hm.mono ?_).mapPages ?_
  · intro v x hempty hv page hpage
    rw [hempty hv] at hpage
    contradiction
  · intro i hi v hv _ page hpage
    have hi' : i < imagePages := hi
    have hlt := imagePages_eq ▸ hi'
    have hnat : (v.extractLsb' 12 36).toNat = i := by
      rw [hv, BitVec.ofNat_eq_ofNat, BitVec.zero_add, extractLsb'_pageAddr (by omega)]
    left
    rw [hnat]
    exact ⟨hi', (Option.some.inj hpage).symm⟩

end Image

/-! ## Dawn's memory after the image -/

section Dawn

variable {s₀ : Pmm} {pml4 : Frame} {m : Machine} {boot : BootInfo} {info : DawnInfo}

/-- Pages that went to Dawn. -/
def DawnFrames (given : List (Owner × Range)) (frames : List Frame) : Prop :=
  ∀ f ∈ frames, ∃ k r, (.dawn k, r) ∈ given ∧ r.length = 1 ∧
    f = BitVec.ofNat 40 r.start

theorem DawnFrames.mono {given given' : List (Owner × Range)} {frames : List Frame}
    (h : DawnFrames given frames) (hsubset : given ⊆ given') :
    DawnFrames given' frames := by
  intro f hf
  obtain ⟨k, r, hr, hlength, hstart⟩ := h f hf
  exact ⟨k, r, hsubset hr, hlength, hstart⟩

theorem extractLsb'_framePage (start : ℕ) :
    (BitVec.ofNat 64 (start * pageSize)).extractLsb' 12 40 = BitVec.ofNat 40 start := by
  apply BitVec.eq_of_toNat_eq
  rw [BitVec.extractLsb'_toNat, BitVec.toNat_ofNat, BitVec.toNat_ofNat,
    Nat.shiftRight_eq_div_pow]
  unfold pageSize
  omega

/-- No walk of a lower-half address leads to a large page. -/
theorem DawnTranslation.ne_page2m {given : List (Owner × Range)} {v : BitVec 64}
    {x : Option Page} (h : DawnTranslation boot info given v x)
    (hv : v.getLsbD 47 = false) (f : LargeFrame) : x ≠ some (.page2m f) := by
  intro hx
  rcases h hv _ hx with ⟨-, hpage⟩ | ⟨k, r, -, -, -, hpage⟩ <;> simp at hpage

theorem getLsbD_47_pageAddr {i : ℕ} (hi : i < 2 ^ 35) :
    (BitVec.ofNat 64 (i * pageSize)).getLsbD 47 = false := by
  rw [BitVec.getLsbD_ofNat, Nat.testBit_eq_decide_div_mod_eq]
  unfold pageSize
  simp only [Bool.and_eq_false_eq_eq_false_or_eq_false, decide_eq_false_iff_not]
  omega

theorem Ready.mapDawn (n pg : ℕ) (lastptrs : List Frame)
    (hm : Ready s₀ pml4 (DawnTranslation boot info m.pages.given) m)
    (hbound : imagePages + s₀.freeSet.card ≤ 2 ^ 35)
    (hcount : pg + m.pages.pmm.freeSet.card ≤ s₀.freeSet.card)
    (hlast : DawnFrames m.pages.given lastptrs)
    (hn : m.pages.pmm.freeSet.card < n) :
    ∃ pg' last' m', DawnPagemap.mapDawn pml4 n pg lastptrs m = (pg', last', m') ∧
      Ready s₀ pml4 (DawnTranslation boot info m'.pages.given) m' ∧
      m'.pages.pmm.freeSet = ∅ ∧ pg' ≤ s₀.freeSet.card ∧
      DawnFrames m'.pages.given last' ∧
      ∀ v, walk m.mem pml4 v ≠ none → walk m'.mem pml4 v ≠ none := by
  induction n generalizing pg lastptrs m with
  | zero => omega
  | succ n ih =>
      rw [DawnPagemap.mapDawn]
      have hmalloc := hm.kmalloc (.dawn pg) one_pos
      rcases Alloc.kmalloc_eq hm.sound.wf (.dawn pg) one_pos with
        ⟨hnone, hempty⟩ | ⟨r, pmm, hlength, hcells, hsome, -, -, hfree⟩
      · have hk : m.kmalloc (.dawn pg) 1 = (none, m) := by
          simp only [Machine.kmalloc, hnone]
        simp only [hk]
        exact ⟨_, _, _, rfl, hm, hempty rfl, by omega, hlast, fun _ h => h⟩
      · set a : Alloc := ⟨pmm, (.dawn pg, r) :: m.pages.given⟩ with ha
        have hk : m.kmalloc (.dawn pg) 1 = (some r, { m with pages := a }) := by
          simp only [Machine.kmalloc, hsome]
        rw [hk] at hmalloc
        simp only [hk]
        have hcard : pmm.freeSet.card + 1 = m.pages.pmm.freeSet.card := by
          rw [hfree, ← hlength, ← Range.card_cells, Finset.card_sdiff_add_card_eq_card hcells]
        have hgiven : (.dawn pg, r) ∈ a.given := List.mem_cons_self
        have hsubset : m.pages.given ⊆ a.given := List.subset_cons_self _ _
        have hm₁ : Ready s₀ pml4 (DawnTranslation boot info a.given)
            { m with pages := a } :=
          hmalloc.mono fun v x h => h.mono hsubset
        have hvirt : dawnImageSize + pg * pageSize = (imagePages + pg) * pageSize := by
          unfold imagePages dawnImageSize pageSize
          omega
        have hlow : imagePages + pg < 2 ^ 35 := by omega
        obtain ⟨hsound₂, hgrows⟩ := sound_mapPage pml4 hm₁.sound
          (BitVec.ofNat 64 (r.start * pageSize))
          (BitVec.ofNat 64 ((imagePages + pg) * pageSize))
        have hm₂ := hm₁.mapPage (BitVec.ofNat 64 (r.start * pageSize))
          (BitVec.ofNat 64 ((imagePages + pg) * pageSize)) (by
            intro v hv _ page hpage
            right
            refine ⟨pg, r, ?_, hgiven, hlength, ?_⟩
            · rw [hv, extractLsb'_pageAddr (by omega)]
            · rw [← extractLsb'_framePage]
              exact (Option.some.inj hpage).symm)
        obtain ⟨ret, m₂, heq, -, hcases⟩ := mapPage_eq hm₁.good
          (BitVec.ofNat 64 (r.start * pageSize))
          (BitVec.ofNat 64 ((imagePages + pg) * pageSize))
        rw [hvirt, heq]
        rw [heq] at hm₂ hgrows
        have hm₃ : Ready s₀ pml4 (DawnTranslation boot info m₂.pages.given) m₂ :=
          hm₂.mono fun v x h => h.mono hgrows.given
        have hlast₃ := (hlast.mono hsubset).mono hgrows.given
        rcases hcases with ⟨rfl, hwalk, hfailed⟩ | ⟨rfl, hwalk, -⟩
        · refine ⟨pg, lastptrs, m₂, by simp, hm₃, ?_, by omega, hlast₃, ?_⟩
          · rcases hfailed with ⟨f, hf⟩ | hexhausted
            · exact absurd hf ((hm₁.walks _).ne_page2m (getLsbD_47_pageAddr hlow) f)
            · exact freeSet_of_exhausted hexhausted
          · intro v hv
            rw [hwalk v]
            exact hv
        · have hcard₂ : m₂.pages.pmm.freeSet.card ≤ pmm.freeSet.card :=
            Finset.card_le_card hgrows.free
          have hlast₄ : DawnFrames m₂.pages.given
              ((BitVec.ofNat 40 r.start :: lastptrs).take 4) := by
            intro f hf
            rcases List.mem_cons.mp (List.mem_of_mem_take hf) with rfl | hf
            · exact ⟨pg, r, hgrows.given hgiven, hlength, rfl⟩
            · exact hlast₃ f hf
          obtain ⟨pg', last', m', hrun, hm', hempty, hpg, hlast', hmapped⟩ :=
            ih (pg + 1) _ hm₃ (by omega) hlast₄ (by omega)
          refine ⟨pg', last', m', by simpa using hrun, hm', hempty, hpg, hlast', ?_⟩
          intro v hv
          refine hmapped v ?_
          rw [hwalk v, Call.override]
          split_ifs
          · simp
          · exact hv

/-- Filling Dawn's pages leaves the tables alone. -/
theorem Ready.fillPages {T : BitVec 64 → Option Page → Prop} (hs : s₀.Wf)
    {frames : List Frame} (hm : Ready s₀ pml4 T m)
    (hframes : DawnFrames m.pages.given frames) :
    Ready s₀ pml4 T (DawnPagemap.fillPages frames m) ∧
      (DawnPagemap.fillPages frames m).pages = m.pages ∧
      ∀ v, walk (DawnPagemap.fillPages frames m).mem pml4 v = walk m.mem pml4 v := by
  induction frames generalizing m with
  | nil => exact ⟨hm, rfl, fun _ => rfl⟩
  | cons page frames ih =>
      obtain ⟨k, r, hr, hlength, rfl⟩ := hframes page List.mem_cons_self
      have hstart : r.start ∈ r.cells := by
        simp [hlength]
      obtain ⟨hnat, -⟩ := frame_toNat_of_mem_freeSet hs (hm.sound.mem_given hr hstart).1
      obtain ⟨pages, htables, howned⟩ := hm.good
      have hne : ∀ f ∈ pages, f ≠ BitVec.ofNat 40 r.start := by
        rintro f hf rfl
        obtain ⟨-, r', hr', hcell⟩ := howned.2 _ hf
        rw [hnat] at hcell
        have := hm.sound.given_unique hr' hr hcell hstart
        simp at this
      set mem' : Memory := fun j =>
        if (frameAddr (BitVec.ofNat 40 r.start)).toNat / 8 ≤ j ∧
            j < (frameAddr (BitVec.ofNat 40 r.start)).toNat / 8 + 512 then
          0xffffffffffffffff
        else m.mem j with hmem'
      obtain ⟨htables', -, hwalk⟩ := htables.congr mem' (by
        intro f hf j
        simp only [readTable, hmem', entry_mem_page_iff, if_neg (hne f hf)])
      have hm' : Ready s₀ pml4 T { m with mem := mem' } := by
        refine ⟨hm.sound, ⟨pages, htables', howned⟩, ?_⟩
        intro v
        rw [hwalk v]
        exact hm.walks v
      obtain ⟨hready, hpages, hwalk'⟩ := ih hm' fun f hf =>
        hframes f (List.mem_cons_of_mem _ hf)
      exact ⟨hready, hpages, fun v => (hwalk' v).trans (hwalk v)⟩

end Dawn

/-! ## The whole -/

section Whole

variable {boot : BootInfo} {info : DawnInfo} {mem : ℕ → BitVec 32} {tables : Memory}
  {s₀ : Pmm} {b : Built}

/-- The direct map, ending below the kernel, leaves Dawn room in the lower
half. -/
theorem Promised.freeSet_card (hpromised : Promised boot info)
    (hinit : pmmInit boot mem = .ok s₀) : imagePages + s₀.freeSet.card ≤ 2 ^ 35 := by
  obtain ⟨-, hmax, -, -⟩ := pmmInit_wf hinit
  have hhigh : highestAddr boot.entries ≤ kernelBase - boot.hhdm.getD 0 := by
    refine (highestAddr_bounds ?_).1
    intro entry hentry hcounted
    have hmap : shouldMapToHhdm entry.type = true := by
      rcases hcounted with htype | htype <;> rw [htype] <;> rfl
    have hbelow := hpromised.hhdm_below entry hentry hmap
    have hround : entry.stop ≤ roundUp entry.stop := by
      unfold roundUp pageSize
      omega
    omega
  have hcard : s₀.freeSet.card ≤ s₀.maxPage := by
    refine (Finset.card_filter_le _ _).trans ?_
    rw [Nat.card_Ico]
    exact Nat.sub_le _ _
  have hge := hpromised.hhdm_ge
  rw [imagePages_eq]
  unfold kernelBase higherHalfBase pageSize at *
  omega

/-- A machine with an empty PML4. -/
theorem Ready.initial {a : Alloc} {pml4 : Frame} {r : Range} (ha : a.Sound s₀)
    (hr : (.pageTable, r) ∈ a.given) (hpml4 : pml4.toNat ∈ r.cells) (mem : Memory) :
    Ready s₀ pml4 LowerHalfEmpty { mem := zeroPage mem pml4, pages := a } := by
  have hzero : ∀ i, readTable (zeroPage mem pml4) pml4 i = 0#64 := by
    intro i
    rw [readTable_zeroPage, if_pos rfl]
  refine ⟨ha, ⟨{pml4}, Tables.initial hzero, ha.wf, ?_⟩, ?_⟩
  · intro f hf
    rw [Finset.mem_singleton.mp hf]
    exact ⟨(ha.mem_given hr hpml4).2, r, hr, hpml4⟩
  · intro v _
    rw [walk, path, RadixTree.lookup, hzero]
    rfl

theorem mapPages_add (pml4 : Frame) (n k : ℕ) (phys virt : BitVec 64) (m : Machine) :
    ∃ phys' virt', mapPages pml4 (n + k) phys virt m =
      mapPages pml4 k phys' virt' (mapPages pml4 n phys virt m) := by
  induction n generalizing phys virt m with
  | zero => exact ⟨phys, virt, by rw [Nat.zero_add]; rfl⟩
  | succ n ih =>
      rw [Nat.succ_add]
      exact ih _ _ _

/-- The address stays mapped, whatever else is. -/
def Mapped (w v : BitVec 64) (x : Option Page) : Prop := v = w → x ≠ none

theorem Ready.mapPages_mapped {pml4 : Frame} {m : Machine} {w : BitVec 64}
    (hm : Ready s₀ pml4 (Mapped w) m) (n : ℕ) (phys virt : BitVec 64) :
    Ready s₀ pml4 (Mapped w) (DawnPagemap.mapPages pml4 n phys virt m) :=
  hm.mapPages fun _ _ _ _ _ => Option.some_ne_none _

theorem Ready.buildMappings {pml4 : Frame} {m : Machine}
    (hm : Ready s₀ pml4 LowerHalfEmpty m) (hs : s₀.Wf)
    (hpromised : Promised boot info) (hbound : imagePages + s₀.freeSet.card ≤ 2 ^ 35)
    (hbuilt : DawnPagemap.buildMappings boot info pml4 m = b) :
    Ready s₀ b.pml4 (DawnTranslation boot info b.machine.pages.given) b.machine ∧
      b.machine.pages.pmm.freeSet = ∅ ∧ b.pg ≤ s₀.freeSet.card ∧
      ∀ n ≤ imagePages, ∀ v, walk (DawnPagemap.mapPages pml4 n
          (ramdiskLoc (boot.hhdm.getD 0) info) 0
          (DawnPagemap.mapFixed boot info (boot.hhdm.getD 0) pml4 m)).mem pml4 v ≠ none →
        walk b.machine.mem b.pml4 v ≠ none := by
  have hfixed := hm.mapFixed hpromised
  have hm₃ := (hfixed.mapImage boot info).setUpTranslator info
  -- what is mapped after `n` pages of the image is mapped after the translator
  have hkept : ∀ n ≤ imagePages, ∀ v, walk (DawnPagemap.mapPages pml4 n
      (ramdiskLoc (boot.hhdm.getD 0) info) 0
      (DawnPagemap.mapFixed boot info (boot.hhdm.getD 0) pml4 m)).mem pml4 v ≠ none →
      walk (DawnPagemap.setUpTranslator info (DawnPagemap.mapPages pml4
        (dawnImageSize / pageSize) (ramdiskLoc (boot.hhdm.getD 0) info) 0
        (DawnPagemap.mapFixed boot info (boot.hhdm.getD 0) pml4 m))).2.mem pml4 v ≠
          none := by
    intro n hn v hv
    obtain ⟨k, hk⟩ := Nat.exists_eq_add_of_le hn
    obtain ⟨phys', virt', hsplit⟩ := mapPages_add pml4 n k
      (ramdiskLoc (boot.hhdm.getD 0) info) 0
      (DawnPagemap.mapFixed boot info (boot.hhdm.getD 0) pml4 m)
    have hfirst : Ready s₀ pml4 (fun _ _ => True) (DawnPagemap.mapPages pml4 n
        (ramdiskLoc (boot.hhdm.getD 0) info) 0
        (DawnPagemap.mapFixed boot info (boot.hhdm.getD 0) pml4 m)) :=
      (hfixed.mono fun _ _ _ => trivial).mapPages fun _ _ _ _ => trivial
    have hmapped : Ready s₀ pml4 (Mapped v) (DawnPagemap.mapPages pml4 n
        (ramdiskLoc (boot.hhdm.getD 0) info) 0
        (DawnPagemap.mapFixed boot info (boot.hhdm.getD 0) pml4 m)) := by
      refine ⟨hfirst.sound, hfirst.good, ?_⟩
      rintro w rfl
      exact hv
    have hrest := (hmapped.mapPages_mapped k phys' virt').setUpTranslator info
    rw [← hsplit, ← hk, imagePages] at hrest
    exact hrest.walks v rfl
  unfold DawnPagemap.buildMappings at hbuilt
  simp only at hbuilt
  generalize DawnPagemap.setUpTranslator info _ = t at hbuilt hm₃ hkept
  obtain ⟨jitBytes, m₃⟩ := t
  simp only [mapRest] at hbuilt hm₃ hkept
  have hm₄ : Ready s₀ pml4 (DawnTranslation boot info m₃.pages.given) m₃ :=
    hm₃.mono fun v x h => h.mono (List.nil_subset _)
  obtain ⟨h, hrefines⟩ := hm₃.sound
  have hfreeEq : m₃.pages.pmm.freeSet = h.free := hrefines.free
  have hcount : m₃.pages.pmm.freeSet.card ≤ s₀.freeSet.card := by
    rw [hfreeEq]
    exact Finset.card_le_card h.free_subset_initial
  have hfuel : m₃.pages.pmm.freeSet.card < m₃.pages.pmm.maxPage + 1 := by
    refine Nat.lt_succ_of_le ((Finset.card_filter_le _ _).trans ?_)
    rw [Nat.card_Ico]
    exact Nat.sub_le _ _
  have hnone : DawnFrames m₃.pages.given [] := by
    intro f hf
    exact absurd hf List.not_mem_nil
  obtain ⟨pg, last, m₄, hrun, hm₅, hempty, hpg, hlast, hmapped⟩ :=
    hm₄.mapDawn (m₃.pages.pmm.maxPage + 1) 0 [] hbound (by omega) hnone hfuel
  rw [hrun] at hbuilt
  simp only at hbuilt
  obtain ⟨hready, hpages, hwalk⟩ := hm₅.fillPages hs hlast
  subst hbuilt
  refine ⟨?_, ?_, hpg, ?_⟩
  · simp only [hpages]
    exact hready
  · simp only [hpages]
    exact hempty
  · intro n hn v hv
    rw [hwalk v]
    exact hmapped v (hkept n hn v hv)

theorem sound_allocAntibuffers {m : Machine} (hm : m.pages.Sound s₀) :
    (allocAntibuffers info m).pages.Sound s₀ := by
  have hkalloc : ∀ (size : ℕ) (m : Machine), m.pages.Sound s₀ →
      (m.kalloc .antibuffer size).2.pages.Sound s₀ :=
    fun size m hm => (hm.kmalloc .antibuffer (Nat.succ_pos _)).1
  exact hkalloc _ _ (hkalloc _ _ hm)

theorem ready_allocPml4 {m m' : Machine} {pml4 : Frame} (hm : m.pages.Sound s₀)
    (h : allocPml4 m = some (pml4, m')) : Ready s₀ pml4 LowerHalfEmpty m' := by
  have hsound := (hm.kmalloc .pageTable one_pos).1
  unfold allocPml4 at h
  rcases Alloc.kmalloc_eq hm.wf .pageTable one_pos with
    ⟨hnone, -⟩ | ⟨r, pmm, hlength, hcells, hsome, -, -, -⟩
  · simp only [Machine.kmalloc, hnone] at h
    contradiction
  · simp only [Machine.kmalloc, hsome, Option.some.injEq, Prod.mk.injEq] at h
    obtain ⟨rfl, rfl⟩ := h
    rw [hsome] at hsound
    have hstart : r.start ∈ r.cells := by
      simp [hlength]
    have hnat := (frame_toNat_of_mem_freeSet hm.wf (hcells hstart)).1
    exact Ready.initial hsound List.mem_cons_self (by rw [hnat]; exact hstart) m.mem

/-- What `dawn_init` comes to: the mappings, built on an empty PML4. -/
theorem dawnInit_eq_some (hs : s₀.Wf) (hbuilt : dawnInit boot info s₀ tables = some b) :
    ∃ pml4 m, allocPml4 (allocAntibuffers info ⟨tables, ⟨s₀, []⟩⟩) = some (pml4, m) ∧
      Ready s₀ pml4 LowerHalfEmpty m ∧
      DawnPagemap.buildMappings boot info pml4 m = b := by
  obtain ⟨⟨pml4, m⟩, halloc, heq⟩ := Option.map_eq_some_iff.mp hbuilt
  exact ⟨pml4, m, halloc,
    ready_allocPml4 (sound_allocAntibuffers (Alloc.Sound.initial hs)) halloc, heq⟩

/-- The machine Dawn gets. -/
theorem dawnInit_ready (hinit : pmmInit boot mem = .ok s₀)
    (hpromised : Promised boot info)
    (hbuilt : dawnInit boot info s₀ tables = some b) :
    Ready s₀ b.pml4 (DawnTranslation boot info b.machine.pages.given) b.machine ∧
      b.machine.pages.pmm.freeSet = ∅ ∧ b.pg ≤ s₀.freeSet.card := by
  obtain ⟨hwf, -⟩ := pmmInit_wf hinit
  obtain ⟨pml4, m, -, hm, heq⟩ := dawnInit_eq_some hwf hbuilt
  obtain ⟨hready, hempty, hpg, -⟩ :=
    hm.buildMappings hwf hpromised (hpromised.freeSet_card hinit) heq
  exact ⟨hready, hempty, hpg⟩

end Whole

/-! ## Isolation -/

/-- The physical address Dawn's address `v` is at. -/
def Built.phys (b : Built) (v : ℕ) : Option (BitVec 52) :=
  (walk b.machine.mem b.pml4 (BitVec.ofNat 64 v)).map
    fun page => page.phys (BitVec.ofNat 64 v)

/-- Dawn's memory is apart from itself and from everybody else's. -/
structure Isolated (boot : BootInfo) (s₀ : Pmm) (b : Built) : Prop where
  injective : ∀ v w a, v < b.memSize → w < b.memSize → b.phys v = some a →
    b.phys w = some a → v = w
  table : ∀ v a p f, v < b.memSize → b.phys v = some a → p.length ≤ 3 →
    reach b.machine.mem b.pml4 p = some f → f ≠ a.extractLsb' 12 40
  bitmap : ∀ v a, v < b.memSize → b.phys v = some a →
    ¬ s₀.OwnPage (a.toNat / pageSize)
  kernel : ∀ v a, v < b.memSize → b.phys v = some a →
    ¬ KernelPage boot (a.extractLsb' 12 40)
  /-- pages of `kmalloc` are mapped only where they were allocated for -/
  given : ∀ v a owner r, v < b.memSize → b.phys v = some a →
    (owner, r) ∈ b.machine.pages.given → a.toNat / pageSize ∈ r.cells →
      ∃ pg, owner = .dawn pg ∧ v / pageSize = imagePages + pg

/-- A page which nobody but Dawn writes to: not free before Dawn is set up, not
of the bitmap, and not of the kernel. -/
structure Clear (boot : BootInfo) (s₀ : Pmm) (f : Frame) : Prop where
  notFree : f.toNat ∉ s₀.freeSet
  notBitmap : ¬ s₀.OwnPage f.toNat
  notKernel : ¬ KernelPage boot f

/-- The pages of the window past the module's end are clear. -/
def WindowClear (boot : BootInfo) (info : DawnInfo) (s₀ : Pmm) : Prop :=
  ∀ i < imagePages, info.moduleSize ≤ i * pageSize →
    Clear boot s₀ (windowFrame boot info i)

section Isolation

variable {boot : BootInfo} {info : DawnInfo} {mem : ℕ → BitVec 32} {tables : Memory}
  {s₀ : Pmm} {b : Built}

theorem page4k_phys_toNat (f : Frame) (v : BitVec 64) :
    ((Page.page4k f).phys v).toNat = f.toNat * pageSize + v.toNat % pageSize := by
  rw [Page.phys, BitVec.toNat_append, BitVec.extractLsb'_toNat, Nat.shiftRight_zero,
    ← Nat.shiftLeft_add_eq_or_of_lt (Nat.mod_lt _ (by norm_num)), Nat.shiftLeft_eq]
  rfl

theorem page4k_phys_div (f : Frame) (v : BitVec 64) :
    ((Page.page4k f).phys v).toNat / pageSize = f.toNat := by
  rw [page4k_phys_toNat]
  unfold pageSize
  omega

theorem page4k_phys_extractLsb' (f : Frame) (v : BitVec 64) :
    ((Page.page4k f).phys v).extractLsb' 12 40 = f := by
  apply BitVec.eq_of_toNat_eq
  have hf := f.isLt
  rw [BitVec.extractLsb'_toNat, page4k_phys_toNat, Nat.shiftRight_eq_div_pow]
  unfold pageSize
  omega

/-- An entry of the memory map which is not usable holds no free page and none
of the bitmap's. -/
theorem not_usable_page (hinit : pmmInit boot mem = .ok s₀) {entry : MemmapEntry}
    (hentry : entry ∈ boot.entries) (htype : entry.type ≠ .usable) {page : ℕ}
    (hbase : entry.base ≤ page * pageSize) (hstop : (page + 1) * pageSize ≤ entry.stop) :
    page ∉ s₀.freeSet ∧ ¬ s₀.OwnPage page := by
  obtain ⟨map, hmap, -⟩ := pmmInit_eq_ok hinit
  have hentries : boot.entries = map.entries := by
    simp only [BootInfo.entries, hmap]
  have hsymm : Std.Symm fun a b : MemmapEntry =>
      a.type = .usable ∨ b.type = .usable → a.Disjoint b :=
    ⟨fun _ _ h hab => (h hab.symm).symm⟩
  have hapart : ∀ other ∈ boot.entries, other.type = .usable →
      entry.Disjoint other := by
    intro other hother husable
    rw [hentries] at hentry hother
    refine map.usableDisjoint.forall hentry hother ?_ (Or.inr husable)
    rintro rfl
    exact htype husable
  obtain ⟨hwf, -, ⟨home, hhome, husable, hlow, hhigh⟩, -⟩ := pmmInit_wf hinit
  unfold MemmapEntry.Disjoint at hapart
  constructor
  · intro hfree
    obtain ⟨other, hother, husable', hlow', hhigh'⟩ :=
      (soundPage_of_mem_freeSet hinit hfree).inside
    have := hapart other hother husable'
    unfold pageSize at *
    omega
  · rintro ⟨hge, hlt⟩
    have := hapart home hhome husable
    have haligned := hwf.aligned
    unfold pageSize at *
    omega

theorem KernelPage.notFree {f : Frame} (hinit : pmmInit boot mem = .ok s₀)
    (hpromised : Promised boot info) (hf : KernelPage boot f) :
    f.toNat ∉ s₀.freeSet := by
  obtain ⟨entry, hentry, htype, hbase, hstop⟩ := hpromised.kernelPhys f hf
  exact (not_usable_page hinit hentry (by rw [htype]; decide) hbase hstop).1

/-- The module's own pages are clear. -/
theorem Promised.clear_module (hinit : pmmInit boot mem = .ok s₀)
    (hpromised : Promised boot info) {i : ℕ} (hi : i * pageSize < info.moduleSize) :
    Clear boot s₀ (windowFrame boot info i) := by
  obtain ⟨base, hmodule, haligned, entry, hentry, htype, hbase, hstop⟩ :=
    hpromised.moduleAt
  obtain ⟨map, hmap, -⟩ := pmmInit_eq_ok hinit
  have hlow : entry.base ≤ (base / pageSize + i) * pageSize := by
    unfold pageSize at *
    omega
  have hhigh : (base / pageSize + i + 1) * pageSize ≤ entry.stop := by
    refine le_trans (Nat.mul_le_mul_right _ ?_) hstop
    unfold pageSize at *
    omega
  have hphys : entry.stop ≤ physLimit := by
    refine map.inPhys entry ?_
    simpa only [BootInfo.entries, hmap] using hentry
  have hloc : ramdiskLoc (boot.hhdm.getD 0) info = BitVec.ofNat 64 base := by
    rw [ramdiskLoc, hmodule, Nat.add_comm, BitVec.ofNat_add, BitVec.add_sub_cancel]
  have hnat : (windowFrame boot info i).toNat = base / pageSize + i := by
    rw [windowFrame, hloc, ← BitVec.ofNat_add, BitVec.extractLsb'_toNat,
      BitVec.toNat_ofNat, Nat.shiftRight_eq_div_pow]
    unfold physLimit pageSize at *
    omega
  obtain ⟨hfree, hown⟩ := not_usable_page hinit hentry (by rw [htype]; decide) hlow hhigh
  rw [← hnat] at hfree hown
  exact ⟨hfree, hown, hpromised.moduleApart i hi⟩

/-- The page of an address of Dawn's, and how it got there. -/
theorem Built.phys_eq_some (hinit : pmmInit boot mem = .ok s₀)
    (hpromised : Promised boot info) (hbuilt : dawnInit boot info s₀ tables = some b)
    {v : ℕ} (hv : v < b.memSize) {a : BitVec 52} (ha : b.phys v = some a) :
    ∃ f : Frame, a.toNat = f.toNat * pageSize + v % pageSize ∧
      a.toNat / pageSize = f.toNat ∧ a.extractLsb' 12 40 = f ∧
      ((v / pageSize < imagePages ∧ f = windowFrame boot info (v / pageSize)) ∨
        ∃ k r, v / pageSize = imagePages + k ∧
          (.dawn k, r) ∈ b.machine.pages.given ∧ r.start ∈ r.cells ∧
          f.toNat ∈ s₀.freeSet ∧ f.toNat = r.start) := by
  obtain ⟨hwf, -⟩ := pmmInit_wf hinit
  obtain ⟨hready, -, hpg⟩ := dawnInit_ready hinit hpromised hbuilt
  have hbound := hpromised.freeSet_card hinit
  have hlt : v / pageSize < 2 ^ 35 := by
    have himage := imagePages_eq
    unfold Built.memSize dawnImageSize at hv
    unfold pageSize at *
    omega
  have hlow : (BitVec.ofNat 64 v).getLsbD 47 = false := by
    rw [BitVec.getLsbD_ofNat, Nat.testBit_eq_decide_div_mod_eq]
    unfold pageSize at hlt
    simp only [Bool.and_eq_false_eq_eq_false_or_eq_false, decide_eq_false_iff_not]
    omega
  have hpage : ((BitVec.ofNat 64 v).extractLsb' 12 36).toNat = v / pageSize := by
    rw [BitVec.extractLsb'_toNat, BitVec.toNat_ofNat, Nat.shiftRight_eq_div_pow]
    unfold pageSize at *
    omega
  have hoffset : (BitVec.ofNat 64 v).toNat % pageSize = v % pageSize := by
    rw [BitVec.toNat_ofNat]
    unfold pageSize
    omega
  unfold Built.phys at ha
  obtain ⟨page, hwalk, rfl⟩ := Option.map_eq_some_iff.mp ha
  rcases hready.walks _ hlow page hwalk with ⟨himage, rfl⟩ | ⟨k, r, hk, hr, hlength, rfl⟩
  · rw [hpage] at himage ⊢
    exact ⟨_, by rw [page4k_phys_toNat, hoffset], page4k_phys_div _ _,
      page4k_phys_extractLsb' _ _, Or.inl ⟨himage, rfl⟩⟩
  · rw [hpage] at hk
    have hstart : r.start ∈ r.cells := by
      simp [hlength]
    have hmem := (hready.sound.mem_given hr hstart).1
    have hnat := (frame_toNat_of_mem_freeSet hwf hmem).1
    exact ⟨_, by rw [page4k_phys_toNat, hoffset], page4k_phys_div _ _,
      page4k_phys_extractLsb' _ _,
      Or.inr ⟨k, r, hk, hr, hstart, by rw [hnat]; exact hmem, hnat⟩⟩

theorem windowFrame_inj {i j : ℕ} (hi : i < imagePages) (hj : j < imagePages)
    (h : windowFrame boot info i = windowFrame boot info j) : i = j := by
  have hnat := congrArg BitVec.toNat h
  rw [imagePages_eq] at hi hj
  simp only [windowFrame, BitVec.extractLsb'_toNat, BitVec.toNat_add,
    BitVec.toNat_ofNat, Nat.shiftRight_eq_div_pow, pageSize] at hnat
  omega

theorem isolated_of_clear (hinit : pmmInit boot mem = .ok s₀)
    (hpromised : Promised boot info) (hbuilt : dawnInit boot info s₀ tables = some b)
    (hclear : ∀ i < imagePages, Clear boot s₀ (windowFrame boot info i)) :
    Isolated boot s₀ b := by
  obtain ⟨hwf, -⟩ := pmmInit_wf hinit
  obtain ⟨hready, -⟩ := dawnInit_ready hinit hpromised hbuilt
  have hgiven : ∀ v a owner r, v < b.memSize → b.phys v = some a →
      (owner, r) ∈ b.machine.pages.given → a.toNat / pageSize ∈ r.cells →
        ∃ pg, owner = .dawn pg ∧ v / pageSize = imagePages + pg := by
    intro v a owner r hv ha hr hcell
    obtain ⟨f, -, hdiv, -, ⟨himage, rfl⟩ | ⟨k, r', hk, hr', hstart, hmem, hnat⟩⟩ :=
      Built.phys_eq_some hinit hpromised hbuilt hv ha
    · rw [hdiv] at hcell
      exact absurd (hready.sound.mem_given hr hcell).1 (hclear _ himage).notFree
    · rw [hdiv, hnat] at hcell
      have heq := hready.sound.given_unique hr hr' hcell hstart
      exact ⟨k, congrArg Prod.fst heq, hk⟩
  refine ⟨?_, ?_, ?_, ?_, hgiven⟩
  · intro v w a hv hw hva hwa
    obtain ⟨f, hnat, hdiv, -, hcase⟩ :=
      Built.phys_eq_some hinit hpromised hbuilt hv hva
    obtain ⟨g, hnat', hdiv', -, hcase'⟩ :=
      Built.phys_eq_some hinit hpromised hbuilt hw hwa
    obtain rfl : f = g := BitVec.eq_of_toNat_eq (hdiv.symm.trans hdiv')
    have hpages : v / pageSize = w / pageSize := by
      rcases hcase with ⟨himage, hf⟩ | ⟨k, r, hk, hr, hstart, hmem, hf⟩
      · rcases hcase' with ⟨himage', hf'⟩ | ⟨k', r', hk', hr', hstart', hmem', hf'⟩
        · exact windowFrame_inj himage himage' (hf.symm.trans hf')
        · rw [hf] at hmem'
          exact absurd hmem' (hclear _ himage).notFree
      · obtain ⟨pg, hpg, hw'⟩ := hgiven w a _ r hw hwa hr (by rw [hdiv, hf]; exact hstart)
        obtain rfl : k = pg := by simpa using hpg
        omega
    unfold pageSize at *
    omega
  · rintro v a p f hv ha hp hreach rfl
    obtain ⟨pages, htables, howned⟩ := hready.good
    obtain ⟨f, -, hdiv, hframe, -⟩ := Built.phys_eq_some hinit hpromised hbuilt hv ha
    obtain ⟨-, r, hr, hcell⟩ := howned.2 _ (htables.owned p _ hp hreach)
    rw [hframe, ← hdiv] at hcell
    obtain ⟨pg, howner, -⟩ := hgiven v a _ r hv ha hr hcell
    contradiction
  · intro v a hv ha
    obtain ⟨f, -, hdiv, -, ⟨himage, rfl⟩ | ⟨k, r, hk, hr, hstart, hmem, hnat⟩⟩ :=
      Built.phys_eq_some hinit hpromised hbuilt hv ha
    · rw [hdiv]
      exact (hclear _ himage).notBitmap
    · rw [hdiv]
      exact hwf.own _ hmem
  · intro v a hv ha
    obtain ⟨f, -, -, hframe, ⟨himage, rfl⟩ | ⟨k, r, hk, hr, hstart, hmem, hnat⟩⟩ :=
      Built.phys_eq_some hinit hpromised hbuilt hv ha
    · rw [hframe]
      exact (hclear _ himage).notKernel
    · rw [hframe]
      exact fun hkernel => hkernel.notFree hinit hpromised hmem

/-- Isolation leaves only clear pages under the mapped pages of the image. -/
theorem Isolated.clear (hinit : pmmInit boot mem = .ok s₀)
    (hpromised : Promised boot info) (hbuilt : dawnInit boot info s₀ tables = some b)
    (hisolated : Isolated boot s₀ b) {i : ℕ} (hi : i < imagePages)
    (hmapped : b.phys (i * pageSize) ≠ none) :
    Clear boot s₀ (windowFrame boot info i) := by
  obtain ⟨hready, hempty, -⟩ := dawnInit_ready hinit hpromised hbuilt
  obtain ⟨a, ha⟩ := Option.ne_none_iff_exists'.mp hmapped
  have hdivPage : i * pageSize / pageSize = i := Nat.mul_div_cancel _ (by decide)
  have hv : i * pageSize < b.memSize := by
    unfold Built.memSize imagePages at *
    unfold dawnImageSize pageSize at *
    omega
  obtain ⟨f, -, hdiv, hframe, hcase⟩ :=
    Built.phys_eq_some hinit hpromised hbuilt hv ha
  rw [hdivPage] at hcase
  obtain ⟨-, rfl⟩ | ⟨k, -, hk, -⟩ := hcase
  · have hbitmap := hisolated.bitmap _ a hv ha
    have hkernel := hisolated.kernel _ a hv ha
    rw [hdiv] at hbitmap
    rw [hframe] at hkernel
    refine ⟨?_, hbitmap, hkernel⟩
    intro hfree
    obtain ⟨owner, r, hr, hcell⟩ := hready.sound.exists_given hfree (by
      rw [hempty]
      exact Finset.notMem_empty _)
    obtain ⟨pg, -, hpg⟩ := hisolated.given _ a owner r hv ha hr (by rw [hdiv]; exact hcell)
    rw [hdivPage] at hpg
    omega
  · omega

/-- With no page of the window past the module's end free, the bitmap's or the
kernel's, Dawn is isolated; where the whole image is mapped, only then. -/
theorem isolated_iff_windowClear (hinit : pmmInit boot mem = .ok s₀)
    (hpromised : Promised boot info)
    (hbuilt : dawnInit boot info s₀ tables = some b) :
    (WindowClear boot info s₀ → Isolated boot s₀ b) ∧
      ((∀ i < imagePages, b.phys (i * pageSize) ≠ none) →
        Isolated boot s₀ b → WindowClear boot info s₀) := by
  constructor
  · intro hwindow
    refine isolated_of_clear hinit hpromised hbuilt ?_
    intro i hi
    rcases lt_or_ge (i * pageSize) info.moduleSize with hmodule | hmodule
    · exact hpromised.clear_module hinit hmodule
    · exact hwindow i hi hmodule
  · intro hmapped hisolated i hi _
    exact hisolated.clear hinit hpromised hbuilt hi (hmapped i hi)

end Isolation

/-! ## A small module -/

/-- A machine whose module is the one page below 16 MiB, where 32 usable pages
begin. -/
def onePageModuleBoot : BootInfo where
  hhdm := some 0xffff800000000000
  executableAddress := some (0x200000, 0xffffffff80000000)
  executableFile := some [⟨ptLoad, 0xffffffff80000000, 0x1000⟩]
  memmap := some
    { entries := [⟨0x200000, 0x1000, .executableAndModules⟩,
        ⟨0xfff000, 0x1000, .executableAndModules⟩, ⟨0x1000000, 0x20000, .usable⟩]
      inPhys := by decide
      usableDisjoint := by decide }

def onePageModule : DawnInfo where
  vbePitch := 64
  vbeHeight := 1
  moduleAddress := 0xffff800000fff000
  moduleSize := 0x1000
  apicBaseMsr := 0xfee00900
  ioApics := []
  mpCpuCount := none

theorem kernelSegments_onePageModuleBoot : kernelSegments onePageModuleBoot =
    [(0xffffffff80000000#64, 0x200000#64, 1)] := by
  decide

theorem apicAddrs_onePageModule : apicAddrs onePageModule = [0xfee00000#64] := by
  decide

theorem promised_onePageModule : Promised onePageModuleBoot onePageModule where
  hhdm_ge := le_refl higherHalfBase
  hhdm_below := by decide +kernel
  apics := by
    intro addr haddr
    obtain rfl : addr = 0xfee00000#64 :=
      List.mem_singleton.mp (apicAddrs_onePageModule ▸ haddr)
    refine higherHalf_of_le ?_
    have hhhdm : onePageModuleBoot.hhdm.getD 0 = 0xffff800000000000 := rfl
    rw [hhhdm, BitVec.toNat_add, BitVec.toNat_ofNat, BitVec.toNat_ofNat]
    norm_num [higherHalfBase]
  kernelVirt := by decide +kernel
  kernelPhys := by
    rintro f ⟨s, hs, i, hi, rfl⟩
    obtain rfl : s = (0xffffffff80000000#64, 0x200000#64, 1) :=
      List.mem_singleton.mp (kernelSegments_onePageModuleBoot ▸ hs)
    obtain rfl : i = 0 := Nat.lt_one_iff.mp hi
    exact ⟨⟨0x200000, 0x1000, .executableAndModules⟩, by decide, rfl, by decide, by decide⟩
  moduleAt := ⟨0xfff000, rfl, rfl, ⟨0xfff000, 0x1000, .executableAndModules⟩,
    by decide, rfl, by decide, by decide⟩
  moduleApart := by
    rintro i hi ⟨s, hs, j, hj, hf⟩
    obtain rfl : s = (0xffffffff80000000#64, 0x200000#64, 1) :=
      List.mem_singleton.mp (kernelSegments_onePageModuleBoot ▸ hs)
    obtain rfl : j = 0 := Nat.lt_one_iff.mp hj
    obtain rfl : i = 0 := by
      have hsize : onePageModule.moduleSize = 0x1000 := rfl
      rw [hsize, pageSize] at hi
      omega
    revert hf
    decide

/-- What the machine does up to the second page of the image. -/
def secondPageMapped : Bool :=
  match pmmInit onePageModuleBoot (fun _ => 0) with
  | .error _ => false
  | .ok s₀ =>
    match allocPml4 (allocAntibuffers onePageModule ⟨fun _ => 0, ⟨s₀, []⟩⟩) with
    | none => false
    | some (pml4, m) =>
      s₀.memBitmap == 0x1000000 && s₀.bitmapPages == 1 &&
        (walk (mapPages pml4 2 (ramdiskLoc 0xffff800000000000 onePageModule) 0
          (mapFixed onePageModuleBoot onePageModule 0xffff800000000000 pml4 m)).mem
          pml4 (BitVec.ofNat 64 (1 * pageSize))).isSome

theorem secondPageMapped_eq_true : secondPageMapped = true := by
  decide +kernel

/-- The machine comes to run Dawn, whose second page is mapped then. -/
theorem onePageModule_built :
    ∃ s₀ b, pmmInit onePageModuleBoot (fun _ => 0) = .ok s₀ ∧
      s₀.memBitmap = 0x1000000 ∧ s₀.bitmapPages = 1 ∧
      dawnInit onePageModuleBoot onePageModule s₀ (fun _ => 0) = some b ∧
      b.phys (1 * pageSize) ≠ none := by
  have hrun := secondPageMapped_eq_true
  unfold secondPageMapped at hrun
  split at hrun
  · contradiction
  next s₀ hinit =>
  split at hrun
  · contradiction
  next pml4 m halloc =>
  simp only [Bool.and_eq_true, beq_iff_eq] at hrun
  obtain ⟨⟨hbitmap, hpages⟩, hwalk⟩ := hrun
  obtain ⟨hwf, -⟩ := pmmInit_wf hinit
  have hm : Ready s₀ pml4 LowerHalfEmpty m :=
    ready_allocPml4 (sound_allocAntibuffers (Alloc.Sound.initial hwf)) halloc
  obtain ⟨b, hb⟩ : ∃ b, buildMappings onePageModuleBoot onePageModule pml4 m = b :=
    ⟨_, rfl⟩
  obtain ⟨-, -, -, hkept⟩ := hm.buildMappings hwf promised_onePageModule
    (promised_onePageModule.freeSet_card hinit) hb
  refine ⟨s₀, b, hinit, hbitmap, hpages, ?_, ?_⟩
  · rw [dawnInit, dawnBuildPagemap, halloc, Option.map_some, ← hb]
  · unfold Built.phys
    rw [ne_eq, Option.map_eq_none_iff]
    exact hkept 2 (by rw [imagePages_eq]; norm_num) _
      (Option.isSome_iff_ne_none.mp hwalk)

/-- Dawn's second page is the page bitmap of the allocator. -/
theorem not_isolated_onePageModule :
    ∃ s₀ b, pmmInit onePageModuleBoot (fun _ => 0) = .ok s₀ ∧
      Promised onePageModuleBoot onePageModule ∧
      dawnInit onePageModuleBoot onePageModule s₀ (fun _ => 0) = some b ∧
      ¬ Isolated onePageModuleBoot s₀ b := by
  obtain ⟨s₀, b, hinit, hbitmap, hpages, hbuilt, hmapped⟩ := onePageModule_built
  refine ⟨s₀, b, hinit, promised_onePageModule, hbuilt, ?_⟩
  intro hisolated
  have hclear := hisolated.clear hinit promised_onePageModule hbuilt
    (by rw [imagePages_eq]; norm_num) hmapped
  refine hclear.notBitmap ?_
  have hframe : (windowFrame onePageModuleBoot onePageModule 1).toNat = 0x1000 := by
    decide
  rw [hframe, Pmm.OwnPage, hbitmap, hpages, pageSize]
  omega

/-! ## A whole module -/

/-- The same machine with a module of the size that is mapped, after the usable pages. -/
def wholeModuleBoot : BootInfo :=
  { onePageModuleBoot with
    memmap := some
      { entries := [⟨0x200000, 0x1000, .executableAndModules⟩, ⟨0x1000000, 0x20000, .usable⟩,
          ⟨0x1200000, 0x10000000, .executableAndModules⟩]
        inPhys := by decide
        usableDisjoint := by decide } }

def wholeModule : DawnInfo :=
  { onePageModule with
    moduleAddress := 0xffff800001200000
    moduleSize := dawnImageSize }

theorem windowFrame_wholeModule {i : ℕ} (hi : i < imagePages) :
    (windowFrame wholeModuleBoot wholeModule i).toNat = 0x1200 + i := by
  rw [imagePages_eq] at hi
  have hloc : ramdiskLoc (wholeModuleBoot.hhdm.getD 0) wholeModule = 0x1200000#64 := by decide
  rw [windowFrame, hloc, ← BitVec.ofNat_add, BitVec.extractLsb'_toNat, BitVec.toNat_ofNat,
    Nat.shiftRight_eq_div_pow]
  unfold pageSize
  omega

theorem promised_wholeModule : Promised wholeModuleBoot wholeModule where
  hhdm_ge := promised_onePageModule.hhdm_ge
  hhdm_below := by
    intro entry hentry _
    have hstop : roundUp entry.stop ≤ 0x11200000 := by
      revert entry
      decide
    exact (Nat.add_le_add_left hstop _).trans (by decide)
  apics := promised_onePageModule.apics
  kernelVirt := promised_onePageModule.kernelVirt
  kernelPhys := by
    intro f hf
    obtain ⟨s, hs, i, hi, rfl⟩ := hf
    obtain rfl : s = (0xffffffff80000000#64, 0x200000#64, 1) :=
      List.mem_singleton.mp (kernelSegments_onePageModuleBoot ▸ hs)
    obtain rfl : i = 0 := Nat.lt_one_iff.mp hi
    exact ⟨⟨0x200000, 0x1000, .executableAndModules⟩, by decide, rfl, by decide, by decide⟩
  moduleAt := ⟨0x1200000, rfl, rfl, ⟨0x1200000, 0x10000000, .executableAndModules⟩,
    by decide, rfl, by decide, by decide⟩
  moduleApart := by
    rintro i hi ⟨s, hs, j, hj, hf⟩
    obtain rfl : s = (0xffffffff80000000#64, 0x200000#64, 1) :=
      List.mem_singleton.mp (kernelSegments_onePageModuleBoot ▸ hs)
    obtain rfl : j = 0 := Nat.lt_one_iff.mp hj
    have himage : i < imagePages := by
      have hsize : wholeModule.moduleSize = 256 * 1024 * 1024 := rfl
      rw [imagePages_eq]
      rw [hsize, pageSize] at hi
      omega
    have hnat := windowFrame_wholeModule himage
    have hkernel : ((0x200000#64 + BitVec.ofNat 64 (0 * pageSize)).extractLsb' 12 40).toNat =
        0x200 := by decide
    rw [hf, hkernel] at hnat
    omega

theorem wholeModule_built :
    ∃ s₀ b, pmmInit wholeModuleBoot (fun _ => 0) = .ok s₀ ∧
      dawnInit wholeModuleBoot wholeModule s₀ (fun _ => 0) = some b := by
  have hrun : (match pmmInit wholeModuleBoot (fun _ => 0) with
      | .error _ => false
      | .ok s₀ => (allocPml4 (allocAntibuffers wholeModule ⟨fun _ => 0, ⟨s₀, []⟩⟩)).isSome) =
      true := by
    decide +kernel
  split at hrun
  · contradiction
  next s₀ hinit =>
  obtain ⟨m, halloc⟩ := Option.isSome_iff_exists.mp hrun
  exact ⟨s₀, _, hinit, by rw [dawnInit, dawnBuildPagemap, halloc, Option.map_some]⟩

/-- Both machines come to run Dawn; with the whole module it is isolated. -/
theorem isolated_iff_windowClear_bothModules :
    (∃ s₀ b, pmmInit onePageModuleBoot (fun _ => 0) = .ok s₀ ∧
      dawnInit onePageModuleBoot onePageModule s₀ (fun _ => 0) = some b ∧
      (WindowClear onePageModuleBoot onePageModule s₀ →
        Isolated onePageModuleBoot s₀ b) ∧
      ((∀ i < imagePages, b.phys (i * pageSize) ≠ none) →
        Isolated onePageModuleBoot s₀ b →
          WindowClear onePageModuleBoot onePageModule s₀)) ∧
    ∃ s₀ b, pmmInit wholeModuleBoot (fun _ => 0) = .ok s₀ ∧
      dawnInit wholeModuleBoot wholeModule s₀ (fun _ => 0) = some b ∧
      WindowClear wholeModuleBoot wholeModule s₀ ∧ Isolated wholeModuleBoot s₀ b := by
  constructor
  · obtain ⟨s₀, b, hinit, -, -, hbuilt, -⟩ := onePageModule_built
    exact ⟨s₀, b, hinit, hbuilt,
      isolated_iff_windowClear hinit promised_onePageModule hbuilt⟩
  · obtain ⟨s₀, b, hinit, hbuilt⟩ := wholeModule_built
    have hwindow : WindowClear wholeModuleBoot wholeModule s₀ := by
      intro i hi hmodule
      have hsize : wholeModule.moduleSize = 256 * 1024 * 1024 := rfl
      rw [imagePages_eq] at hi
      rw [hsize, pageSize] at hmodule
      omega
    exact ⟨s₀, b, hinit, hbuilt, hwindow,
      (isolated_iff_windowClear hinit promised_wholeModule hbuilt).1 hwindow⟩

end DawnPagemap
end SubleqEmu
