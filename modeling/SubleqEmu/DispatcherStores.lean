import SubleqEmu.DispatcherInvariant

/-!
# Stores

What changes memory changes no static word: a store that `interp_step` has checked, the
stores of a block, and those of `jit_copy`.
-/

namespace SubleqEmu
namespace Dispatcher

open ByteMemory Subleq Emitter Machine
open CopyLoop (Desc Loop compared insnAt)
open Translator (Marked Baked Clear spannedWords clear_of_spannedWords)

variable {cfg : Config} {s s' : Jit} {b f : Word} {mem : Memory}

/-! ## Memory -/

/-- The static words are in this memory what they are. -/
def Jit.Keeps (cfg : Config) (s : Jit) (mem : Memory) : Prop :=
  ∀ f : Word, f.toNat % 8 = 0 → cfg.size.Holds f → s.staticMap (f >>> 3) = true →
    read mem f = read s.mem f

theorem Jit.Inv.congr (h : s.Inv cfg) (hmem : s.Keeps cfg s'.mem)
    (hstatic : s'.staticMap = s.staticMap) (hdyn : s'.dynMap = s.dynMap)
    (hpage : s'.pageMap = s.pageMap) (htable : s'.table = s.table) (hlinks : s'.links = s.links) :
    s'.Inv cfg where
  blocks b hb := by
    have hvalid := h.blocks b (htable ▸ hb)
    refine ⟨hvalid.toMade, fun i hi q hq hdyn => ?_, fun i hi q hq hdyn => ?_⟩
    · obtain ⟨haligned, -, -, hholds⟩ := hvalid.toMade.field hi hq
      rw [hmem q haligned hholds (hvalid.marked i hi q hq hdyn)]
      exact hvalid.baked i hi q hq hdyn
    · rw [hstatic]
      exact hvalid.marked i hi q hq hdyn
  unique := htable ▸ h.unique
  pages := by
    rw [marked_iff, hstatic, hpage]
    exact marked_iff.mp h.pages
  disjoint := by
    rw [hstatic, hdyn]
    exact h.disjoint
  links := by
    unfold Jit.LinksLive
    rw [htable, hlinks]
    exact h.links

theorem Jit.keeps_self (s : Jit) : s.Keeps cfg s.mem := fun _ _ _ _ => rfl

theorem Jit.keeps_write (h : Clear s.maps cfg.size b) (v : Word) :
    s.Keeps cfg (write s.mem b v) := by
  intro f hf hholds hstatic
  exact read_write_apart _ _ (h f hf hholds ((static_maps s _).trans hstatic)).symm

/-- Where the budget and `eip` stand does not matter. -/
theorem Jit.Inv.back (h : s.Inv cfg) (eip budget : Word) : (s.back eip budget).Inv cfg :=
  h.congr s.keeps_self rfl rfl rfl rfl rfl

/-! ## The interpreter -/

theorem Hits.storeCheck (s : Jit) (b : Word) : Hits cfg s (s.storeCheck cfg b) := by
  have hhit : ∀ (P : Prop) [Decidable P] (s : Jit) (w : Word),
      Hits cfg s (if P then s.smcHit w else s) := by
    intro P _ s w
    split_ifs
    · exact .smcHit s w
    · exact .refl s
  unfold Jit.storeCheck
  exact (hhit _ s _).trans (hhit _ _ _)

/-- The words of the store are not static after the check. -/
theorem clear_storeCheck (hb : cfg.size.Holds b) :
    Clear (s.storeCheck cfg b).maps cfg.size b := by
  apply clear_of_spannedWords hb
  intro w hw
  rw [static_maps]
  have hle := cfg.size.le
  have hwords : ∀ x : Word, x < BitVec.ofNat 64 cfg.size.val >>> 3 ↔
      x.toNat < cfg.size.val / 8 := by
    intro x
    bv_omega
  unfold Jit.storeCheck
  extract_lets words x x' s₁
  have hfirst : x.toNat < cfg.size.val / 8 → s₁.staticMap x = false := by
    intro hlt
    show (if x < words ∧ s.staticMap x then s.smcHit x else s).staticMap x = false
    split_ifs with h
    · exact staticMap_smcHit s x
    · exact Bool.eq_false_iff.mpr fun hstatic => h ⟨(hwords x).mpr hlt, hstatic⟩
  have hmono : ∀ y, s₁.staticMap y = false →
      (if x' ≠ x ∧ x' < words ∧ s₁.staticMap x' then s₁.smcHit x' else s₁).staticMap y = false := by
    intro y hy
    split_ifs
    · exact Bool.eq_false_iff.mpr fun h =>
        Bool.eq_false_iff.mp hy ((@Hits.smcHit cfg s₁ x').static y h)
    · exact hy
  unfold spannedWords at hw
  rw [List.mem_append] at hw
  rcases hw with hw | hw
  · split_ifs at hw with h
    · obtain rfl := List.mem_singleton.mp hw
      exact hmono _ (hfirst h.2)
    · cases hw
  · split_ifs at hw with h
    · obtain rfl := List.mem_singleton.mp hw
      split_ifs with hhit
      · exact staticMap_smcHit s₁ x'
      · refine Bool.eq_false_iff.mpr fun hstatic =>
          hhit ⟨fun heq => ?_, (hwords _).mpr h.2.1, hstatic⟩
        have hlt : x < x' := h.1
        rw [heq] at hlt
        exact BitVec.lt_irrefl x hlt
    · cases hw

/-- A step of the interpreter, with what its check drops. -/
theorem interpStep_spec (h : s.interpStep cfg = some s') :
    Subleq.interpStep cfg.size s.mem s.eip = some (s'.mem, s'.eip) ∧
      s'.budget = s.budget - 1 ∧ (∀ w, s.dynMap w = true → s'.dynMap w = true) ∧
      (s.Inv cfg → s'.Inv cfg) := by
  simp only [Jit.interpStep, Option.bind_eq_bind, Option.bind_eq_some_iff, rd_eq_some,
    wr_eq_some] at h
  obtain ⟨a, ha, b, hb, c, hc, va, hva, vb, hvb, mem, ⟨hholds, rfl⟩, h⟩ := h
  obtain rfl := Option.some.inj h
  have hhits := @Hits.storeCheck cfg s b
  refine ⟨?_, ?_, hhits.dyn, fun hinv => ?_⟩
  · simp only [Subleq.interpStep, Option.bind_eq_bind, Option.bind_eq_some_iff, rd_eq_some,
      wr_eq_some]
    refine ⟨a, ha, b, hb, c, hc, va, hva, vb, hvb, _, ⟨hholds, rfl⟩, ?_⟩
    simp only [hhits.mem, hhits.eip]
    rfl
  · simp only [hhits.budget]
  · exact (hhits.inv hinv).congr (Jit.keeps_write (clear_storeCheck hholds) _) rfl rfl rfl rfl rfl

end Dispatcher
end SubleqEmu
