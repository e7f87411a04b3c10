import SubleqEmu.DispatcherBlocks

/-!
# Copies

What a call of `jit_copy` at the entry of a block does at once: so many rounds of the
loop, with no static word changed.
-/

namespace SubleqEmu
namespace Dispatcher

open ByteMemory Subleq
open CopyLoop
open CopyGuard (isField_compared)

variable {cfg : Config} {s : Jit} {b : Block} {desc : Desc} {size : MemSize} {m m' : Memory}
  {pageMap : Word → Bool} {f n : Word} {done : Bool} {budget : Word}

/-- The words compared are as they were when the block was made. -/
theorem Block.Valid.loop_now (h : b.Valid cfg.size s) (hloop : b.IsLoop cfg.size desc) :
    ∃ dynMap, Loop cfg.size dynMap s.mem desc := by
  obtain ⟨dynMap, m₀, hmatch, hraw⟩ := hloop.loop
  have hsize := cfg.size.le
  have hle := hmatch.start_le
  refine ⟨dynMap, hmatch.congr fun a ha => ?_⟩
  rw [hloop.start] at ha hle
  obtain ⟨k, i, hfield⟩ := isField_compared (by omega) ha
  have hinsn : (insnAt b.start k).toNat = b.start.toNat + 24 * k :=
    insnAt_toNat (by omega) hfield.insn
  have hplace := hfield.place
  have htoNat := hfield.toNat
  have hmem : a ∈ b.fields k := by
    have hcases : a = insnAt b.start k ∨ a = insnAt b.start k + 8 ∨ a = insnAt b.start k + 16 := by
      have hthree : i = 0 ∨ i = 1 ∨ i = 2 := by omega
      rcases hthree with rfl | rfl | rfl
      · left
        bv_omega
      · right; left
        bv_omega
      · right; right
        bv_omega
    unfold Block.fields
    simpa using hcases
  rw [← h.baked k (hloop.n ▸ hfield.insn) a hmem (hloop.static a ha), hraw]

/-! ## The words written -/

theorem writeVars_read {x d c bytes last : Word}
    (h : writeVars size desc x d c bytes last m = some m')
    (hf : ∀ a ∈ storedWords desc, size.Holds a → Apart a f) : read m' f = read m f := by
  unfold writeVars at h
  simp only [Option.bind_eq_bind, Option.bind_eq_some_iff, wr_eq_some] at h
  obtain ⟨_, ⟨h₁, rfl⟩, _, ⟨h₂, rfl⟩, _, ⟨h₃, rfl⟩, _, ⟨h₄, rfl⟩, _, ⟨h₅, rfl⟩, _, ⟨h₆, rfl⟩, _,
    ⟨h₇, rfl⟩, _, ⟨h₈, rfl⟩, h₉, rfl⟩ := h
  have hapart : ∀ a, a ∈ storedWords desc → size.Holds a → ∀ m v,
      read (write m a v) f = read m f := fun a ha hholds m v =>
    read_write_apart m v (hf a ha hholds)
  rw [hapart _ (by simp [storedWords]) h₉, hapart _ (by simp [storedWords]) h₈,
    hapart _ (by simp [storedWords]) h₇, hapart _ (by simp [storedWords]) h₆,
    hapart _ (by simp [storedWords]) h₅, hapart _ (by simp [storedWords]) h₄,
    hapart _ (by simp [storedWords]) h₃, hapart _ (by simp [storedWords]) h₂,
    hapart _ (by simp [storedWords]) h₁]

theorem anyPage_eq_false {first last pg : Word} (h : anyPage pageMap first last = false)
    (hfirst : first >>> 12 ≤ pg) (hlast : pg ≤ last >>> 12) : pageMap pg = false := by
  unfold anyPage at h
  rw [List.any_eq_false] at h
  have hmem : (pg - first >>> 12).toNat ∈
      List.range ((last >>> 12).toNat + 1 - (first >>> 12).toNat) := by
    rw [List.mem_range]
    bv_omega
  have hpage := h _ hmem
  rw [show first >>> 12 + BitVec.ofNat 64 (pg - first >>> 12).toNat = pg by bv_omega] at hpage
  exact Bool.eq_false_iff.mpr hpage

/-- A word whose page is marked is not copied over. -/
theorem moved_read {x d bytes : Word} (hf : f.toNat % 8 = 0)
    (hpage : pageMap (f >>> 12) = true) (hd : d.toNat + bytes.toNat ≤ size.val)
    (hbytes : 0 < bytes.toNat) (hany : anyPage pageMap d (d + bytes - 1) = false) :
    read (moved m d x bytes) f = read m f := by
  have hle := size.le
  have hapart : f.toNat + 8 ≤ d.toNat ∨ d.toNat + bytes.toNat ≤ f.toNat := by
    by_contra hover
    have hfalse : pageMap (f >>> 12) = false :=
      anyPage_eq_false hany (by bv_omega) (by bv_omega)
    rw [hpage] at hfalse
    cases hfalse
  apply read_congr
  intro k hk
  unfold moved
  rw [if_neg]
  bv_omega

/-! ## The copy -/

/-- What a call of `jit_copy` that copies has done. -/
structure Copied (cfg : Config) (s : Jit) (b : Block) (budget n : Word) (done : Bool)
    (mem : Memory) : Prop where
  keeps : s.Keeps cfg mem
  run : interpRun cfg.size (19 * n.toNat) (s.mem, b.start) =
    some (mem, if done then Site.copy.target b.start else b.start)
  le : 19 * (n.toNat - 1) ≤ budget.toNat

theorem copied_of_jitCopy (hvalid : b.Valid cfg.size s) (hpages : Translator.Marked s.maps)
    (hhoist : b.src.hoist.any s.staticMap = false) (hcopy : b.copy = some desc)
    (hjit : jitCopy cfg.size s.pageMap cfg.copyFn desc budget s.mem = some (⟨n, done⟩, m))
    (hn : n ≠ 0) : Copied cfg s b budget n done m := by
  have hisLoop := hvalid.loop desc hcopy
  obtain ⟨dynMap, hloop⟩ := hvalid.loop_now hisLoop
  have hsize := cfg.size.le
  rcases jitCopy_eq_some hjit with ⟨hzero, -⟩ |
    ⟨n', hbudget, htotal, hr, hholds, hm, hrefuses, hw⟩
  · exact absurd hzero hn
  obtain ⟨rfl, rfl⟩ := CopyResult.mk.inj hr
  have hle := (totalOf_bounds (read s.mem desc.c)).2
  have hvars : ∀ v ∈ [desc.t1, desc.t2, desc.s, desc.d, desc.c] ++ [desc.m],
      cfg.size.Holds v := by
    intro v hv
    rcases List.mem_append.mp hv with hv | hv
    · exact writeVars_holds hw v hv
    · rwa [List.mem_singleton.mp hv]
  obtain ⟨hranges, hmin⟩ := ranges_of_refuses hloop (htotal.trans hle) hrefuses hvars
  obtain ⟨j, hj⟩ : ∃ j, n.toNat = j + 1 := ⟨n.toNat - 1, by omega⟩
  have hnj : n = BitVec.ofNat 64 (j + 1) := by bv_omega
  have hs := hranges.s_le
  have hd := hranges.d_le
  have hbytes : (8 * n).toNat = 8 * n.toNat := by bv_omega
  have hmoved : cfg.copyFn s.mem (read s.mem desc.d) (read s.mem desc.s) (8 * n) =
      moved s.mem (read s.mem desc.d) (read s.mem desc.s) (8 * n) :=
    cfg.copies _ _ _ _ (by omega) (by omega) (by have horder := hranges.order; omega)
  rw [hmoved] at hw
  constructor
  · intro f hf hfholds hstatic
    have hpage := (marked_iff.mp hpages _ hstatic).1
    rw [show (f >>> 3) <<< 3 = f by bv_omega] at hpage
    have hroom : (read s.mem desc.d).toNat + (8 * n).toNat ≤ cfg.size.val := by omega
    rw [writeVars_read hw, moved_read hf hpage hroom (by omega)
      (Bool.or_eq_false_iff.mp hrefuses).2]
    intro a ha haholds
    -- the entry has tested the words of all the loop's own stores
    have hclear := List.any_eq_false.mp hhoist _ (hisLoop.hoist a ha haholds)
    have hstart : desc.start.toNat % 8 = 0 := hisLoop.start ▸ hvalid.aligned
    have haligned := storedWords_aligned hloop hstart ha
    have hne : a >>> 3 ≠ f >>> 3 := fun heq => hclear (heq ▸ hstatic)
    unfold MemSize.Holds at haholds hfholds
    unfold Apart
    bv_omega
  · obtain ⟨m₁, hloopRun, hafter⟩ := After.run hloop hranges hm le_rfl htotal
    rw [hj] at hranges hafter
    rw [hnj, show read s.mem desc.s + 8 * BitVec.ofNat 64 (j + 1) - 8 =
      read s.mem desc.s + 8 * BitVec.ofNat 64 j by bv_omega] at hw
    obtain rfl := hafter.eq_writeVars hloop hranges rfl hw
    have hend : insnAt desc.start 19 = desc.start + 19 * 24 := by
      unfold insnAt
      bv_omega
    rw [← hisLoop.start, hloopRun]
    simp only [decide_eq_true_eq, hend, BitVec.toNat_inj, Site.target]
  · omega

end Dispatcher
end SubleqEmu
