import SubleqEmu.KernelHeapBytes
import SubleqEmu.PageAllocatorSearch

/-!
# Runs of the kernel heap

A run is any sequence of `kalloc`, `kfree` and `krealloc` calls on live objects,
with writes to their bytes in between, from any state of the page allocator.  It
is matched by a heap of ranges over the pages free at its start.
-/

namespace SubleqEmu
namespace KernelHeap

open PageAllocator

/-- A call: `kfree k` and `krealloc k` are about the `k`-th of the live objects;
without one, `krealloc` gets the null pointer.  `store` is the owner's. -/
inductive Call
  | kalloc (size : BitVec 64)
  | kfree (k : ℕ)
  | krealloc (k : ℕ) (newSize : BitVec 64)
  | store (k i : ℕ) (byte : BitVec 8)

/-- The allocator and the objects handed out and not freed since. -/
structure Config where
  pmm : Pmm
  live : List Object

/-- What a call leaves that answered with `addr`, the null pointer for a failure. -/
def answer (addr : Addr) (size : BitVec 64) (s : Pmm) (kept failed : List Object) : Config :=
  if addr = 0 then ⟨s, failed⟩ else ⟨s, ⟨addr, size⟩ :: kept⟩

def Config.step (offset : Offset) (c : Config) : Call → Except PmmError Config
  | .kalloc size => do
      let (addr, s) ← kalloc offset size c.pmm
      return answer addr size s c.live c.live
  | .kfree k =>
      match c.live[k]? with
      | none => return c
      | some o => do
          let s ← kfree offset o.addr c.pmm
          return ⟨s, c.live.eraseIdx k⟩
  | .krealloc k newSize =>
      match c.live[k]? with
      | none => do
          let (addr, s) ← krealloc offset 0 newSize c.pmm
          return answer addr newSize s c.live c.live
      | some o => do
          let (addr, s) ← krealloc offset o.addr newSize c.pmm
          return answer addr newSize s (c.live.eraseIdx k)
            (if newSize = 0 then c.live.eraseIdx k else c.live)
  | .store k i byte =>
      match c.live[k]? with
      | none => return c
      | some o =>
          if i < o.size.toNat then
            return ⟨wr8 c.pmm (phys offset (o.addr + BitVec.ofNat 64 i)) byte, c.live⟩
          else return c

def Config.run (offset : Offset) : List Call → Config → Except PmmError Config
  | [], c => .ok c
  | call :: calls, c => do
      let c ← c.step offset call
      run offset calls c

/-! ## What a call does to the pages -/

/-- A new object over free pages, or nothing. -/
def Allocates (offset : Offset) (size : BitVec 64) (c c' : Config) : Prop :=
  c' = c ∨ ∃ o : Object, o.size = size ∧ c'.live = o :: c.live ∧
    (o.range offset).cells ⊆ c.pmm.freeSet ∧
    c'.pmm.freeSet = c.pmm.freeSet \ (o.range offset).cells

/-- Just the pages of the `k`-th object change, to free. -/
def Frees (offset : Offset) (k : ℕ) (o : Object) (c c' : Config) : Prop :=
  c'.live = c.live.eraseIdx k ∧ c'.pmm.freeSet = c.pmm.freeSet ∪ (o.range offset).cells

/-- The `k`-th object gets new pages and keeps its first bytes; its old pages are free. -/
def Moves (offset : Offset) (k : ℕ) (o : Object) (newSize : BitVec 64) (c c' : Config) : Prop :=
  c' = c ∨ ∃ o' : Object, o'.size = newSize ∧ c'.live = o' :: c.live.eraseIdx k ∧
    (o'.range offset).cells ⊆ c.pmm.freeSet ∧
    c'.pmm.freeSet = (c.pmm.freeSet \ (o'.range offset).cells) ∪ (o.range offset).cells ∧
    ∀ i < min o.size.toNat newSize.toNat,
      rd8 c'.pmm (phys offset (o'.addr + BitVec.ofNat 64 i)) =
        rd8 c.pmm (phys offset (o.addr + BitVec.ofNat 64 i))

def Effect (offset : Offset) (c : Config) : Call → Config → Prop
  | .kalloc size, c' => Allocates offset size c c'
  | .kfree k, c' =>
      match c.live[k]? with
      | none => c' = c
      | some o => Frees offset k o c c'
  | .krealloc k newSize, c' =>
      match c.live[k]? with
      | none => Allocates offset newSize c c'
      | some o => if newSize = 0 then Frees offset k o c c' else Moves offset k o newSize c c'
  | .store _ _ _, c' => c'.live = c.live ∧ c'.pmm.freeSet = c.pmm.freeSet

/-! ## The invariant -/

/-- The configuration, reached from `s₀`, does what the heap of ranges says, and
the objects have their metadata. -/
structure Config.Inv (offset : Offset) (s₀ : Pmm) (c : Config) (h : Heap s₀.freeSet) : Prop where
  wf : c.pmm.Wf
  layout : s₀.SameLayout c.pmm
  free : c.pmm.freeSet = h.free
  live : c.live.map (Object.range offset) = h.live
  objects : ∀ o ∈ c.live, o.Live offset c.pmm

theorem Config.inv_initial {offset : Offset} {s₀ : Pmm} (hs : s₀.Wf) :
    Config.Inv offset s₀ ⟨s₀, []⟩ (Heap.fresh s₀.freeSet) :=
  ⟨hs, .refl s₀, rfl, rfl, by simp⟩

/-- Changes outside the pages of an object leave its metadata. -/
theorem Object.Live.of_frame {offset : Offset} {s s' : Pmm} {o : Object} {r : Range}
    (h : o.Live offset s) (hs : s.Wf)
    (hown : ∀ i ∈ (o.range offset).cells, ¬ s.OwnPage i)
    (hapart : Disjoint (o.range offset).cells r.cells)
    (hframe : ∀ w, ¬ s.BitmapWord w → ¬ Range.Word r w → s'.mem w = s.mem w) :
    o.Live offset s' := by
  apply h.congr
  intro k hk
  have hw := Object.word_metadata offset o hk
  refine hframe _ ?_ (hw.not_of_apart hapart)
  intro hbitmap
  exact hs.not_word_of_bitmapWord hown hbitmap hw

theorem fifteenfold_mod {m q offset : ℕ} (hsum : offset + q = m) (hq : 15 * q < m)
    (hpos : 0 < q) : (m - 15 * offset % m) % m = 15 * q := by
  have hmul : 15 * offset = m - 15 * q + 14 * m := by omega
  have hlt : m - 15 * q < m := by omega
  rw [hmul, Nat.add_mul_mod_self_right, Nat.mod_eq_of_lt hlt, Nat.sub_sub_self hq.le,
    Nat.mod_eq_of_lt hq]

theorem Object.Live.fifteenfold_lt {offset : Offset} {s : Pmm} {o : Object}
    (h : o.Live offset s) : 15 * (o.start offset * pageSize + pageSize) < 2 ^ 64 := by
  have hlast := h.last_le
  unfold physLimit pageSize at *
  omega

/-- No object is at the null pointer. -/
theorem Object.Live.addr_ne {offset : Offset} (hdrift : drift offset < pageSize) {s : Pmm}
    {o : Object} (h : o.Live offset s) : o.addr ≠ 0 := by
  intro hnull
  have hlast := h.last_le
  have hpage : o.start offset * pageSize ≤ 2 ^ 52 := by
    unfold physLimit pageSize at *
    omega
  have hlt : o.start offset * pageSize < 2 ^ 64 := by omega
  have haddr := congrArg BitVec.toNat (h.addr.symm.trans hnull)
  rw [BitVec.toNat_add, BitVec.toNat_add, BitVec.toNat_ofNat, Nat.mod_eq_of_lt hlt,
    Nat.mod_add_mod] at haddr
  have hsum : offset.toNat + (o.start offset * pageSize + pageSize) = 2 ^ 64 := by
    have hmod : (o.start offset * pageSize + offset.toNat + 4096) % 2 ^ 64 = 0 := haddr
    have hbound := offset.isLt
    show offset.toNat + (o.start offset * pageSize + 4096) = 2 ^ 64
    omega
  rw [drift_eq, fifteenfold_mod hsum h.fifteenfold_lt (Nat.add_pos_right _ (by decide))] at hdrift
  unfold pageSize at hdrift
  omega

theorem size_le_pagesOf (size : BitVec 64) : size.toNat ≤ pagesOf size * pageSize := by
  unfold pagesOf pageSize
  split_ifs <;> omega

/-- Where the bytes of an object are. -/
theorem Object.Live.phys_byte {offset : Offset} {s : Pmm} {o : Object} (h : o.Live offset s)
    {i : ℕ} (hi : i < pagesOf o.size * pageSize) :
    phys offset (o.addr + BitVec.ofNat 64 i) = (o.start offset + 1) * pageSize + i := by
  have hlast := h.last_le
  have hlt : o.start offset * pageSize + (pageSize + i) < 2 ^ 64 := by
    unfold physLimit pageSize at *
    omega
  have hsum : o.addr + BitVec.ofNat 64 i =
      BitVec.ofNat 64 (o.start offset * pageSize) + offset + BitVec.ofNat 64 (pageSize + i) := by
    rw [h.addr, BitVec.ofNat_add, BitVec.add_assoc]
    rfl
  rw [hsum, phys_add hlt]
  ring

theorem Object.Live.phys_size {offset : Offset} {s : Pmm} {o : Object} (h : o.Live offset s) :
    phys offset (o.addr - pageBytes + 8) = o.start offset * pageSize + 8 := by
  have hlast := h.last_le
  rw [h.addr, BitVec.add_sub_cancel]
  have hlt : o.start offset * pageSize + 8 < 2 ^ 64 := by
    unfold physLimit pageSize at *
    omega
  exact phys_add hlt

theorem Object.byte_page (offset : Offset) (o : Object) {i : ℕ}
    (hi : i < pagesOf o.size * pageSize) :
    ((o.start offset + 1) * pageSize + i) / pageSize ∈ (o.range offset).cells := by
  rw [Range.mem_cells]
  unfold Object.range pageSize at *
  simp only
  omega

theorem Object.byte_word (offset : Offset) (o : Object) {i : ℕ}
    (hi : i < pagesOf o.size * pageSize) :
    Range.Word (o.range offset) (((o.start offset + 1) * pageSize + i) / 4) := by
  unfold Range.Word Object.range pageSize at *
  simp only
  omega

theorem min_size (a b : BitVec 64) :
    (if a > b then b else a).toNat = min a.toNat b.toNat := by
  split_ifs with h
  · exact (min_eq_right (BitVec.le_def.mp (BitVec.le_of_lt h))).symm
  · exact (min_eq_left (BitVec.le_def.mp (BitVec.not_lt.mp h))).symm

section

variable {offset : Offset} {s₀ : Pmm} {c : Config} {h : Heap s₀.freeSet}

namespace Config.Inv

theorem cells_subset (hc : c.Inv offset s₀ h) {o : Object} (ho : o ∈ c.live) :
    (o.range offset).cells ⊆ s₀.freeSet := by
  apply h.cells_subset_initial
  rw [← hc.live]
  exact List.mem_map_of_mem ho

theorem pages (hc : c.Inv offset s₀ h) (hs : s₀.Wf) {o : Object} (ho : o ∈ c.live) :
    ∀ i ∈ (o.range offset).cells, c.pmm.Tracked i ∧ ¬ c.pmm.OwnPage i := by
  intro i hi
  have hfree := hc.cells_subset ho hi
  rw [hc.layout.tracked_iff, hc.layout.ownPage_iff]
  exact ⟨(Pmm.mem_freeSet.mp hfree).1, hs.own i hfree⟩

theorem apart_free (hc : c.Inv offset s₀ h) {o : Object} (ho : o ∈ c.live) :
    Disjoint (o.range offset).cells c.pmm.freeSet := by
  rw [hc.free]
  apply h.free_apart
  rw [← hc.live]
  exact List.mem_map_of_mem ho

theorem apart_of_ne (hc : c.Inv offset s₀ h) {o o' : Object} (ho : o ∈ c.live)
    (ho' : o' ∈ c.live) (hne : o.range offset ≠ o'.range offset) :
    Disjoint (o.range offset).cells (o'.range offset).cells := by
  have hsymm : Std.Symm Range.Apart := ⟨fun _ _ => Range.Apart.symm⟩
  have hmem : ∀ p ∈ c.live, p.range offset ∈ h.live := by
    intro p hp
    rw [← hc.live]
    exact List.mem_map_of_mem hp
  exact h.apart.forall (hmem o ho) (hmem o' ho') hne

/-- Handing out pages for a new object. -/
theorem handed (hc : c.Inv offset s₀ h) (hs : s₀.Wf) {o : Object} {s' : Pmm}
    (hlive : o.Live offset s') (hhanded : c.pmm.Handed s' (o.range offset)) :
    Config.Inv offset s₀ ⟨s', o :: c.live⟩
      (h.alloc (o.range offset) (hc.free ▸ hhanded.was_free)) := by
  refine ⟨hhanded.wf, hc.layout.trans hhanded.layout, ?_, ?_, ?_⟩
  · rw [Heap.alloc_free, ← hc.free]
    exact hhanded.freeSet
  · rw [Heap.alloc_live, ← hc.live]
    rfl
  · intro other hother
    rcases List.mem_cons.mp hother with rfl | hother
    · exact hlive
    · exact (hc.objects other hother).of_frame hc.wf (fun i hi => (hc.pages hs hother i hi).2)
        ((hc.apart_free hother).mono_right hhanded.was_free) hhanded.frame

/-- Freeing the pages of the `k`-th object. -/
theorem freed (hc : c.Inv offset s₀ h) (hs : s₀.Wf) {k : ℕ} {o : Object}
    (hk : c.live[k]? = some o) {s' : Pmm} (hfreed : c.pmm.Freed s' (o.range offset)) :
    ∃ h', Config.Inv offset s₀ ⟨s', c.live.eraseIdx k⟩ h' := by
  obtain ⟨hlt, hget⟩ := List.getElem?_eq_some_iff.mp hk
  have hlt' : k < h.live.length := by
    rw [← hc.live, List.length_map]
    exact hlt
  have hget' : h.live.get ⟨k, hlt'⟩ = o.range offset := by
    simp only [List.get_eq_getElem, ← hc.live, List.getElem_map, hget]
  refine ⟨h.release ⟨k, hlt'⟩, hfreed.wf, hc.layout.trans hfreed.layout, ?_, ?_, ?_⟩
  · rw [Heap.release_free, hget', ← hc.free]
    exact hfreed.freeSet
  · show (c.live.eraseIdx k).map (Object.range offset) = h.live.eraseIdx k
    rw [← hc.live, List.eraseIdx_map]
  · intro other hother
    have hmem := List.mem_of_mem_eraseIdx hother
    refine (hc.objects other hmem).congr fun j hj => hfreed.frame _ ?_
    intro hbitmap
    exact hc.wf.not_word_of_bitmapWord (fun i hi => (hc.pages hs hmem i hi).2) hbitmap
      (Object.word_metadata offset other hj)

/-- Writes to the bytes of a live object. -/
theorem written (hc : c.Inv offset s₀ h) (hs : s₀.Wf) {o : Object} (ho : o ∈ c.live)
    {f : ℕ → BitVec 32}
    (hf : ∀ w, w < (o.start offset + 1) * pageSize / 4 ∨
      (o.start offset + pagesOf o.size + 1) * pageSize / 4 ≤ w → f w = c.pmm.mem w) :
    Config.Inv offset s₀ ⟨c.pmm.withMem f, c.live⟩ h ∧
      (c.pmm.withMem f).freeSet = c.pmm.freeSet := by
  have hout : ∀ w, ¬ Range.Word (o.range offset) w → f w = c.pmm.mem w := by
    intro w hw
    apply hf
    unfold Range.Word Object.range pageSize at hw
    unfold pageSize
    simp only at hw
    omega
  have hbitmap : ∀ w, c.pmm.BitmapWord w → f w = c.pmm.mem w := fun w hw =>
    hout w (hc.wf.not_word_of_bitmapWord (fun i hi => (hc.pages hs ho i hi).2) hw)
  have hfree := hc.wf.freeSet_withMem hbitmap
  refine ⟨⟨hc.wf.withMem hbitmap, hc.layout.trans ⟨rfl, rfl, rfl⟩, hfree.trans hc.free, hc.live,
    ?_⟩, hfree⟩
  intro other hother
  apply (hc.objects other hother).congr
  intro j hj
  have hword := Object.word_metadata offset other hj
  -- the metadata is in the first page of an object's own range or in another range
  by_cases heq : other.range offset = o.range offset
  · apply hf
    have hstart : other.start offset = o.start offset := congrArg Range.start heq
    rw [hstart]
    unfold pageSize
    omega
  · apply hout
    exact hword.not_of_apart (hc.apart_of_ne hother ho heq)

theorem kalloc (hc : c.Inv offset s₀ h) (hs : s₀.Wf) (hdrift : drift offset < pageSize)
    (size : BitVec 64) :
    ∃ addr s' h', KernelHeap.kalloc offset size c.pmm = .ok (addr, s') ∧
      (answer addr size s' c.live c.live).Inv offset s₀ h' ∧
      Allocates offset size c (answer addr size s' c.live c.live) := by
  rcases kalloc_cases offset size hc.wf with hnull | ⟨o, s', hsome, rfl, hlive, hhanded⟩
  · exact ⟨0, c.pmm, h, hnull, hc, Or.inl rfl⟩
  · have hanswer : answer o.addr o.size s' c.live c.live = ⟨s', o :: c.live⟩ :=
      if_neg (hlive.addr_ne hdrift)
    have hinv := hc.handed hs hlive hhanded
    have heffect : Allocates offset o.size c ⟨s', o :: c.live⟩ :=
      Or.inr ⟨o, rfl, rfl, hhanded.was_free, hhanded.freeSet⟩
    rw [← hanswer] at hinv heffect
    exact ⟨o.addr, s', _, hsome, hinv, heffect⟩

theorem kfree (hc : c.Inv offset s₀ h) (hs : s₀.Wf) (hdrift : drift offset < pageSize)
    {k : ℕ} {o : Object} (hk : c.live[k]? = some o) :
    ∃ s' h', KernelHeap.kfree offset o.addr c.pmm = .ok s' ∧
      Config.Inv offset s₀ ⟨s', c.live.eraseIdx k⟩ h' ∧
      Frees offset k o c ⟨s', c.live.eraseIdx k⟩ := by
  have ho := List.mem_of_getElem? hk
  obtain ⟨s', hfree, hfreed⟩ := kfree_live hdrift hc.wf (hc.objects o ho) (hc.pages hs ho)
  obtain ⟨h', hinv⟩ := hc.freed hs hk hfreed
  exact ⟨s', h', hfree, hinv, rfl, hfreed.freeSet⟩

theorem store (hc : c.Inv offset s₀ h) (hs : s₀.Wf) {o : Object} (ho : o ∈ c.live) {i : ℕ}
    (hi : i < o.size.toNat) (byte : BitVec 8) :
    Config.Inv offset s₀
        ⟨wr8 c.pmm (phys offset (o.addr + BitVec.ofNat 64 i)) byte, c.live⟩ h ∧
      (wr8 c.pmm (phys offset (o.addr + BitVec.ofNat 64 i)) byte).freeSet = c.pmm.freeSet := by
  have hbound := size_le_pagesOf o.size
  rw [(hc.objects o ho).phys_byte (by omega)]
  refine hc.written hs ho (f := (wr8 c.pmm _ byte).mem) fun w hw => ?_
  refine Function.update_of_ne ?_ _ _
  unfold pageSize at *
  omega

/-- New pages for a live object, its first bytes copied there, and its old pages freed. -/
theorem krealloc (hc : c.Inv offset s₀ h) (hs : s₀.Wf) (hdrift : drift offset < pageSize)
    {k : ℕ} {o : Object} (hk : c.live[k]? = some o) {newSize : BitVec 64}
    (hsize : newSize ≠ 0) :
    ∃ addr s' h', KernelHeap.krealloc offset o.addr newSize c.pmm = .ok (addr, s') ∧
      (answer addr newSize s' (c.live.eraseIdx k) c.live).Inv offset s₀ h' ∧
      Moves offset k o newSize c (answer addr newSize s' (c.live.eraseIdx k) c.live) := by
  have ho := List.mem_of_getElem? hk
  have hlive := hc.objects o ho
  rw [KernelHeap.krealloc, if_neg (hlive.addr_ne hdrift), if_neg hsize]
  rcases kalloc_cases offset newSize hc.wf with hnull | ⟨o', s₁, hsome, rfl, hlive', hhanded⟩
  · exact ⟨0, c.pmm, h, by rw [hnull]; rfl, hc, Or.inl rfl⟩
  · have hc₁ := hc.handed hs hlive' hhanded
    have hlive₁ : o.Live offset s₁ := hc₁.objects o (List.mem_cons_of_mem o' ho)
    -- the copy
    have hold : rd64 s₁ (phys offset (o.addr - pageBytes + 8)) = o.size := by
      rw [hlive₁.phys_size]
      exact hlive₁.size
    have hlength := min_size o.size o'.size
    set n := (if o.size > o'.size then o'.size else o.size).toNat
    have hbound := size_le_pagesOf o.size
    have hbound' := size_le_pagesOf o'.size
    have hapart : Disjoint (o.range offset).cells (o'.range offset).cells :=
      (hc.apart_free ho).mono_right hhanded.was_free
    have hbytes : ∀ j < n, ∀ k < n, (o.start offset + 1) * pageSize + j ≠
        (o'.start offset + 1) * pageSize + k := by
      intro j hj k hk heq
      have hpage := o.byte_page offset (i := j) (by omega)
      have hpage' := o'.byte_page offset (i := k) (by omega)
      rw [← heq] at hpage'
      exact Finset.disjoint_left.mp hapart hpage hpage'
    obtain ⟨f, hcopy, hcopied⟩ := memcpy_eq (s := s₁)
      (fun k hk => hlive'.phys_byte (i := k) (by omega))
      (fun k hk => hlive₁.phys_byte (i := k) (by omega)) hbytes
    obtain ⟨hc₂, hfree₂⟩ := hc₁.written hs (List.mem_cons_self (a := o')) (f := f) fun w hw =>
      hcopied.frame w fun k hk heq => by
        unfold pageSize at *
        omega
    -- the old pages
    have hk' : (o' :: c.live)[k + 1]? = some o := by
      rw [List.getElem?_cons_succ]
      exact hk
    have hlive₂ := hc₂.objects o (List.mem_cons_of_mem o' ho)
    obtain ⟨s₃, hfree, hfreed⟩ :=
      kfree_live hdrift hc₂.wf hlive₂ (hc₂.pages hs (List.mem_cons_of_mem o' ho))
    obtain ⟨h', hinv⟩ := hc₂.freed hs hk' hfreed
    have hanswer : answer o'.addr o'.size s₃ (c.live.eraseIdx k) c.live =
        ⟨s₃, o' :: c.live.eraseIdx k⟩ := if_neg (hlive'.addr_ne hdrift)
    have heffect : Moves offset k o o'.size c ⟨s₃, o' :: c.live.eraseIdx k⟩ := by
      refine Or.inr ⟨o', rfl, rfl, hhanded.was_free, ?_, ?_⟩
      · rw [← hhanded.freeSet, ← hfree₂]
        exact hfreed.freeSet
      · intro i hi
        have hin : i < pagesOf o.size * pageSize := by omega
        have hin' : i < pagesOf o'.size * pageSize := by omega
        have hword := o.byte_word offset hin
        have hword' := o'.byte_word offset hin'
        rw [hlive'.phys_byte hin', hlive.phys_byte hin]
        calc rd8 s₃ ((o'.start offset + 1) * pageSize + i)
            = rd8 (s₁.withMem f) ((o'.start offset + 1) * pageSize + i) := by
              refine rd8_congr (hfreed.frame _ fun hbitmap => ?_)
              exact hc₂.wf.not_word_of_bitmapWord
                (fun i hi => (hc₂.pages hs (List.mem_cons_self (a := o')) i hi).2) hbitmap hword'
          _ = rd8 s₁ ((o.start offset + 1) * pageSize + i) := hcopied.bytes i (by omega)
          _ = rd8 c.pmm ((o.start offset + 1) * pageSize + i) := by
              refine rd8_congr (hhanded.frame _ (fun hbitmap => ?_) (hword.not_of_apart hapart))
              exact hc.wf.not_word_of_bitmapWord (fun i hi => (hc.pages hs ho i hi).2)
                hbitmap hword
    rw [← hanswer] at heffect
    refine ⟨o'.addr, s₃, h', ?_, ?_, heffect⟩
    · rw [hsome, ok_bind]
      simp only [if_neg (hlive'.addr_ne hdrift), hold]
      rw [hcopy, hfree]
      rfl
    · rw [hanswer]
      exact hinv

theorem step (hc : c.Inv offset s₀ h) (hs : s₀.Wf) (hdrift : drift offset < pageSize)
    (call : Call) :
    ∃ c' h', c.step offset call = .ok c' ∧ c'.Inv offset s₀ h' ∧ Effect offset c call c' := by
  cases call with
  | kalloc size =>
      obtain ⟨addr, s', h', hkalloc, hinv, heffect⟩ := hc.kalloc hs hdrift size
      refine ⟨_, h', ?_, hinv, heffect⟩
      simp only [Config.step, hkalloc, ok_bind]
      rfl
  | kfree k =>
      cases hk : c.live[k]? with
      | none =>
          refine ⟨c, h, ?_, hc, ?_⟩
          · simp only [Config.step, hk]
            rfl
          · simp only [Effect, hk]
      | some o =>
          obtain ⟨s', h', hkfree, hinv, heffect⟩ := hc.kfree hs hdrift hk
          refine ⟨_, h', ?_, hinv, ?_⟩
          · simp only [Config.step, hk, hkfree, ok_bind]
            rfl
          · simp only [Effect, hk]
            exact heffect
  | krealloc k newSize =>
      cases hk : c.live[k]? with
      | none =>
          obtain ⟨addr, s', h', hkalloc, hinv, heffect⟩ := hc.kalloc hs hdrift newSize
          have hnull : KernelHeap.krealloc offset 0 newSize c.pmm = .ok (addr, s') := by
            rw [KernelHeap.krealloc, if_pos rfl, hkalloc]
          refine ⟨_, h', ?_, hinv, ?_⟩
          · simp only [Config.step, hk, hnull, ok_bind]
            rfl
          · simp only [Effect, hk]
            exact heffect
      | some o =>
          by_cases hsize : newSize = 0
          · subst hsize
            obtain ⟨s', h', hkfree, hinv, heffect⟩ := hc.kfree hs hdrift hk
            have hlive := hc.objects o (List.mem_of_getElem? hk)
            have hzero : KernelHeap.krealloc offset o.addr 0 c.pmm = .ok (0, s') := by
              rw [KernelHeap.krealloc, if_neg (hlive.addr_ne hdrift), if_pos rfl, hkfree]
              rfl
            refine ⟨_, h', ?_, hinv, ?_⟩
            · simp only [Config.step, hk, hzero, ok_bind, answer, if_true]
              rfl
            · simp only [Effect, hk, if_true]
              exact heffect
          · obtain ⟨addr, s', h', hkrealloc, hinv, heffect⟩ := hc.krealloc hs hdrift hk hsize
            refine ⟨_, h', ?_, hinv, ?_⟩
            · simp only [Config.step, hk, hkrealloc, ok_bind, hsize, if_false]
              rfl
            · simp only [Effect, hk, hsize, if_false]
              exact heffect
  | store k i byte =>
      cases hk : c.live[k]? with
      | none =>
          refine ⟨c, h, ?_, hc, rfl, rfl⟩
          simp only [Config.step, hk]
          rfl
      | some o =>
          by_cases hi : i < o.size.toNat
          · obtain ⟨hinv, hfree⟩ := hc.store hs (List.mem_of_getElem? hk) hi byte
            refine ⟨_, h, ?_, hinv, rfl, hfree⟩
            simp only [Config.step, hk, hi, if_true]
            rfl
          · refine ⟨c, h, ?_, hc, rfl, rfl⟩
            simp only [Config.step, hk, hi, if_false]
            rfl

theorem run (hc : c.Inv offset s₀ h) (hs : s₀.Wf) (hdrift : drift offset < pageSize)
    (calls : List Call) :
    ∃ c' h', Config.run offset calls c = .ok c' ∧ c'.Inv offset s₀ h' := by
  induction calls generalizing c h with
  | nil => exact ⟨c, h, rfl, hc⟩
  | cons call calls ih =>
      obtain ⟨c₁, h₁, hstep, hc₁, -⟩ := hc.step hs hdrift call
      obtain ⟨c₂, h₂, hrun, hc₂⟩ := ih hc₁
      refine ⟨c₂, h₂, ?_, hc₂⟩
      simp only [Config.run, hstep, ok_bind]
      exact hrun

end Config.Inv

end

/-! ## The round trip over all histories -/

/-- `kfree` undoes `kalloc` exactly for the offsets whose drift stays within a page;
for these every call of every run does to the pages what it should. -/
theorem kfree_undoes_kalloc {boot : BootInfo} {mem : ℕ → BitVec 32} {s₀ s : Pmm}
    (hinit : pmmInit boot mem = .ok s₀) (hs : Reachable s₀ s) (offset : Offset) :
    (∀ size addr s', kalloc offset size s = .ok (addr, s') → addr ≠ 0 →
      ((∃ s'', kfree offset addr s' = .ok s'' ∧ s.SameBitmap s'') ↔
        drift offset < pageSize)) ∧
    (drift offset < pageSize → ∀ calls, ∃ c, Config.run offset calls ⟨s, []⟩ = .ok c ∧
      ∀ call, ∃ c', c.step offset call = .ok c' ∧ Effect offset c call c') := by
  have hwf := hs.wf (pmmInit_wf hinit).1
  constructor
  · intro size addr s' hkalloc haddr
    exact restores_iff hwf hkalloc haddr
  · intro hdrift calls
    obtain ⟨c, h, hrun, hinv⟩ := (Config.inv_initial hwf).run hwf hdrift calls
    refine ⟨c, hrun, fun call => ?_⟩
    obtain ⟨c', h', hstep, -, heffect⟩ := hinv.step hwf hdrift call
    exact ⟨c', hstep, heffect⟩

theorem kfree_undoes_kalloc_threePageBoot :
    ∃ s₀, pmmInit threePageBoot (fun _ => 0) = .ok s₀ ∧
      (∀ size addr s', kalloc 0 size s₀ = .ok (addr, s') → addr ≠ 0 →
        ∃ s'', kfree 0 addr s' = .ok s'' ∧ s₀.SameBitmap s'') ∧
      ∀ calls, ∃ c, Config.run 0 calls ⟨s₀, []⟩ = .ok c ∧
        ∀ call, ∃ c', c.step 0 call = .ok c' ∧ Effect 0 c call c' := by
  obtain ⟨s₀, hs₀⟩ : ∃ s₀, pmmInit threePageBoot (fun _ => 0) = .ok s₀ :=
    exists_eq_ok (by decide)
  have hundoes := kfree_undoes_kalloc hs₀ .initial 0
  have hdrift : drift 0 < pageSize := by decide
  exact ⟨s₀, hs₀, fun size addr s' hkalloc haddr =>
    (hundoes.1 size addr s' hkalloc haddr).mpr hdrift, hundoes.2 hdrift⟩

/-- Where Limine maps physical memory. -/
def higherHalf : Offset := 0xffff800000000000

def allocatesOne : Bool :=
  match pmmInit threePageBoot (fun _ => 0) with
  | .ok s₀ =>
      match kalloc higherHalf 1 s₀ with
      | .ok (addr, _) => addr != 0
      | .error _ => false
  | .error _ => false

theorem kfree_strays :
    ∃ s₀ addr s', pmmInit threePageBoot (fun _ => 0) = .ok s₀ ∧
      kalloc higherHalf 1 s₀ = .ok (addr, s') ∧ addr ≠ 0 ∧
      ¬ ∃ s'', kfree higherHalf addr s' = .ok s'' ∧ s₀.SameBitmap s'' := by
  have hone : allocatesOne = true := by decide
  unfold allocatesOne at hone
  split at hone
  next s₀ hinit =>
    split at hone
    next addr s' hkalloc =>
      have haddr : addr ≠ 0 := by simpa using hone
      refine ⟨s₀, addr, s', hinit, hkalloc, haddr, ?_⟩
      rw [restores_iff (pmmInit_wf hinit).1 hkalloc haddr]
      decide
    next => cases hone
  next => cases hone

end KernelHeap
end SubleqEmu
