import SubleqEmu.TranslatorHolding

/-!
# Words put together after a store

After a store to an unaligned address the cached words that it spans are put together as
the store left them.
-/

namespace SubleqEmu
namespace Translator

open ByteMemory Subleq Emitter Machine

variable {maps : Maps} {m m' : Memory} {P P' : Set Reg} {J J' : Cache} {M M' M₁ : State}
  {a b : Word} {r s t : Reg} {v w part : CVal} {x y z mask : Word} {n : ℕ} {left : Bool}

/-- `r |= part` for a register that was just made. -/
theorem orPart_emits (h : Ready m P J M) (hr : Fresh (keeping P part) r J)
    (hpart : Known part y J M) (hlive : J.flagsLive = false) :
    Emits maps m P J M (do
      orVal r part
      return .reg r) fun w J' M' => Known w (M.reg r ||| y) J' M' ∧ Own P w J' := by
  have hne : ¬ Uses part r := fun huse => hr.notMem (Or.inr huse)
  refine .bind (orVal_emits h (hr.mono subset_keeping) hpart hne hlive) ?_
  rintro _ J₁ M₁ hkeep ⟨hr₁, hor⟩
  exact .pure hkeep.ready ⟨known_reg hor hr₁.pinned, Or.inr ⟨r, rfl, hr₁⟩⟩

theorem maskedOr_emits (h : Ready m P J M) (hw : Known w x J M) (hpart : Known part y J M)
    (hown : Own P part J) (hlive : J.flagsLive = false) :
    Emits maps m P J M (maskedOr w mask part) fun w' J' M' =>
      Known w' (x &&& mask ||| y) J' M' ∧ Own P w' J' := by
  have hreg : Emits maps m P J M (do
      let s ← toReg w
      let r ← scratch
      emit (.mov r s)
      andImm64 r mask
      orVal r part
      return .reg r) fun w' J' M' => Known w' (x &&& mask ||| y) J' M' ∧ Own P w' J' := by
    refine .bind_in (toReg_known (h.keeping hpart) hw) (subset_keeping.trans subset_keeping)
      fun t J₁ M₁ hkeep₁ ht => ?_
    obtain ⟨htx, ht⟩ := ht
    have htpin : (J₁.regs t).pinned = true := by
      rcases ht with ⟨rfl, -⟩ | ⟨-, hfresh⟩
      · exact hkeep₁.ready.pinned t (Or.inr (Or.inl rfl))
      · exact hfresh.pinned
    have hkeep₁' := hkeep₁.mono (subset_keeping (P := keeping P part) (v := w))
    have hsub := Set.subset_insert t (keeping P part)
    refine .bind_in (scratch_emits (hkeep₁'.ready.insert htpin)) (subset_keeping.trans hsub)
      fun r J₂ M₂ hkeep₂ hr => ?_
    have hkeep₂' := hkeep₁'.trans (hkeep₂.mono hsub)
    have hr' := hr.mono hsub
    have hlive₂ := hkeep₂'.live.trans hlive
    refine .bind_in (Emits.change hkeep₂'.ready hr' hlive₂ rfl) subset_keeping ?_
    rintro _ _ M₃ hkeep₃ ⟨rfl, hmov⟩
    refine .bind_in (andImm64_emits hkeep₃.ready hr' hlive₂) subset_keeping ?_
    rintro _ J₄ M₄ hkeep₄ ⟨hr₄, hand⟩
    have hkeep := (hkeep₂'.trans hkeep₃).trans hkeep₄
    rw [hmov, hkeep₂.reg t (Set.mem_insert t _), htx] at hand
    rw [← hand]
    exact orPart_emits (hkeep.ready.mono subset_keeping) hr₄ (hkeep.known_keeping hpart)
      (hkeep.live.trans hlive)
  cases w with
  | none => exact hw.denotes.elim
  | const c =>
      obtain rfl : c = x := hw.denotes
      obtain ⟨d, rfl⟩ | ⟨r, rfl, hr⟩ := hown
      · obtain rfl : d = y := hpart.denotes
        exact .pure h ⟨known_const rfl, Or.inl ⟨_, rfl⟩⟩
      · have hmasked : maskedOr (.const c) mask (.reg r) =
            if c &&& mask = 0 then pure (.reg r)
            else (do
              let r' ← scratch
              emit (.movImm r' (c &&& mask))
              orVal r' (.reg r)
              return .reg r') := rfl
        rw [hmasked]
        split_ifs with hzero
        · refine .pure h ⟨?_, Or.inr ⟨r, rfl, hr⟩⟩
          rw [hzero]
          exact (BitVec.zero_or (x := y)).symm ▸ hpart
        · refine .bind_in (scratch_emits (h.keeping hpart)) subset_keeping
            fun r' J₁ M₁ hkeep₁ hr' => ?_
          have hmove := hkeep₁.ready.move hr'.notMem hr'.free (c &&& mask)
          have hkeep := hkeep₁.trans hmove
          refine .emit_bind rfl (hmove.mono subset_keeping) ?_
          have hor := @orPart_emits maps _ _ _ _ _ _ _ (hkeep.ready.mono subset_keeping) hr'
            (hkeep.known_keeping hpart) (hkeep.live.trans hlive)
          rwa [set_reg] at hor
  | _ => exact hreg

/-- What the store left in one of the words, if the cache had it. -/
theorem updateWord_runs (h : Ready m P J M) (hpend : J.pend = none) (ha : cacheable a = true)
    (hold : w ≠ .none → Known w (read m a) J M) (hnone : w = .none → ∀ v, ¬ Entry J a v)
    (hv : Known v z J M) (hlive : J.flagsLive = false) :
    Runs maps J M (updateWord a w mask v left n) fun _ J' M' =>
      Ready (ByteMemory.write m a (read m a &&& mask ||| shift left z n)) P J' M' ∧
        Frame m P J M J' M' := by
  unfold updateWord onlyIf
  split_ifs with hfound
  · have hw := hold hfound
    refine .bind (shifted_emits (h.keeping hw) hv hlive) fun part J₁ M₁ hpart => ?_
    obtain ⟨hkeep₁, hpart, hown⟩ := hpart
    have hkeep₁' := hkeep₁.mono (subset_keeping (P := P) (v := w))
    refine .bind (maskedOr_emits hkeep₁'.ready (hkeep₁.known_keeping hw) hpart
      (hown.mono subset_keeping) (hkeep₁.live.trans hlive)) fun new J₂ M₂ hnew => ?_
    obtain ⟨hkeep₂, hnew, hown'⟩ := hnew
    have hkeep := hkeep₁'.trans hkeep₂
    have hbut := hkeep.ready.but a
    have hpend₂ := hkeep.pend_eq_none hpend
    obtain ⟨c, rfl⟩ | ⟨r, rfl, hr⟩ := hown'
    · have hc : c = read m a &&& mask ||| shift left z n := hnew.denotes
      refine .modify ⟨⟨?_, fun s hs => setConst_pinned.trans (hkeep.ready.pinned s hs)⟩,
        hkeep.toFrame.trans (.quiet setConst_pend setConst_flagsLive)⟩
      rw [← hc]
      exact hbut.setConst ha fun p hp => by simp [hpend₂] at hp
    · exact .modify ⟨⟨hbut.bindReg ha hnew.denotes (Or.inl (free_iff.mp hr.free).1),
        fun s hs => bindReg_pinned.trans (hkeep.ready.pinned s hs)⟩,
        hkeep.toFrame.trans (.quiet bindReg_pend bindReg_flagsLive)⟩
  · rw [not_not] at hfound
    refine .pure ⟨⟨(h.but a).of_no_entry ha (hnone hfound) (by rw [hpend]; nofun) _, h.pinned⟩,
      .refl m P J M⟩

/-- It makes no entry for another word. -/
theorem updateWord_no_entry (h : ∀ x, Ready (ByteMemory.write m b x) P J M)
    (hpend : J.pend = none) (ha : cacheable a = true) (hb : cacheable b = true) (hne : a ≠ b)
    (hold : w ≠ .none → Known w (read m a) J M) (hnone : w = .none → ∀ v, ¬ Entry J a v)
    (hv : Known v z J M) (hlive : J.flagsLive = false) :
    Runs maps J M (updateWord a w mask v left n) fun _ J' _ => ∀ v, ¬ Entry J' b v := by
  have hread : ∀ x, read (ByteMemory.write m b x) a = read m a := fun x =>
    read_write_cacheable hb ha hne m x
  have hold' : ∀ x, w ≠ .none → Known w (read (ByteMemory.write m b x) a) J M := fun x hw => by
    rw [hread x]
    exact hold hw
  intro _ J' c heq
  obtain ⟨M₁, hrun, hready, -⟩ :=
    @updateWord_runs maps _ _ _ _ _ _ _ _ _ _ _ (h 0) hpend ha (hold' 0) hnone hv hlive _ _ _ heq
  obtain ⟨M₂, hrun', hready', -⟩ :=
    @updateWord_runs maps _ _ _ _ _ _ _ _ _ _ _ (h 1) hpend ha (hold' 1) hnone hv hlive _ _ _ heq
  rw [hrun] at hrun'
  cases hrun'
  refine ⟨M₁, hrun, fun v hv => ?_⟩
  have hzero := (hready.entry hv).2
  have hone := (hready'.entry hv).2
  rw [read_write_cacheable ha hb (Ne.symm hne), read_write_self] at hzero hone
  exact absurd (hzero.unique hone) (by decide)

/-- With nothing held back the frame does not depend on memory. -/
theorem Frame.of_pend_eq_none (h : Frame m P J M J' M') (hpend : J.pend = none) :
    Frame m' ∅ J M J' M' where
  reg _ hr := hr.elim
  live := h.live
  flags := h.flags
  pend := h.pend
  init := h.init
  stores := by
    have hstores := h.stores
    rwa [held, held, hpend, h.pend_eq_none hpend] at hstores ⊢

theorem updateBoth_runs {lo : Word} {q : ℕ} {lv hv : CVal} (h : Sound m J M)
    (hpend : J.pend = none) (hlive : J.flagsLive = false) (hlo : cacheable lo = true)
    (hhi : cacheable (lo + 8) = true) (hq : 0 < q) (hq' : q < 8) (hval : Known v z J M)
    (hlv : lv ≠ .none → Known lv (read m lo) J M) (hlv' : lv = .none → ∀ v, ¬ Entry J lo v)
    (hhv : hv ≠ .none → Known hv (read m (lo + 8)) J M)
    (hhv' : hv = .none → ∀ v, ¬ Entry J (lo + 8) v) :
    Runs maps J M (do
      updateWord lo lv (~~~(BitVec.allOnes 64 >>> (8 * q))) v false (8 * q)
      updateWord (lo + 8) hv (BitVec.allOnes 64 >>> (8 * q)) v true (64 - 8 * q))
      fun _ J' M' => Sound (ByteMemory.write m (lo + BitVec.ofNat 64 q) z) J' M' ∧
        Frame m ∅ J M J' M' := by
  have hne : lo ≠ lo + 8 := by bv_omega
  set P := keeping (keeping ∅ v) hv with hP
  have hpin : ∀ s ∈ P, (J.regs s).pinned = true := by
    rintro s ((hs | hs) | hs)
    · exact hs.elim
    · exact hval.pinned s hs
    · by_cases hnone : hv = .none
      · exact absurd hs (hnone ▸ not_uses_none)
      · exact (hhv hnone).pinned s hs
  have hread : read (ByteMemory.write m lo (read m lo &&& ~~~(BitVec.allOnes 64 >>> (8 * q)) |||
      shift false z (8 * q))) (lo + 8) = read m (lo + 8) :=
    read_write_cacheable hlo hhi (Ne.symm hne) _ _
  have hfirst := @updateWord_runs maps _ P _ _ _ _ _ _ (~~~(BitVec.allOnes 64 >>> (8 * q))) (8 * q)
    false ⟨h, hpin⟩ hpend hlo hlv hlv' hval hlive
  have hno : Runs maps J M (updateWord lo lv (~~~(BitVec.allOnes 64 >>> (8 * q))) v false (8 * q))
      fun _ J' _ => hv = .none → ∀ v, ¬ Entry J' (lo + 8) v := by
    by_cases hnone : hv = .none
    · exact (updateWord_no_entry (P := P) (fun x => ⟨(h.but _).of_no_entry hhi (hhv' hnone)
        (by rw [hpend]; nofun) x, hpin⟩) hpend hlo hhi hne hlv hlv' hval hlive).imp
        fun _ _ _ hno _ => hno
    · exact hfirst.imp fun _ _ _ _ heq => absurd heq hnone
  refine .bind (hfirst.and hno) ?_
  rintro _ J₁ M₁ ⟨⟨hready₁, hframe₁⟩, hno₁⟩
  have hval₁ : Known v z J₁ M₁ := ⟨hframe₁.denotes hval.denotes fun s hs => Or.inl (Or.inr hs),
    fun s hs => hready₁.pinned s (Or.inl (Or.inr hs))⟩
  have hhv₁ : hv ≠ .none → Known hv (read m (lo + 8)) J₁ M₁ := fun hne =>
    ⟨hframe₁.denotes (hhv hne).denotes fun s hs => Or.inr hs,
      fun s hs => hready₁.pinned s (Or.inr hs)⟩
  refine (updateWord_runs hready₁ (hframe₁.pend_eq_none hpend) hhi (by rwa [hread]) hno₁ hval₁
    (hframe₁.live.trans hlive)).imp ?_
  rintro _ J₂ M₂ ⟨hready₂, hframe₂⟩
  refine ⟨?_, (hframe₁.of_pend_eq_none hpend).trans
    (hframe₂.of_pend_eq_none (hframe₁.pend_eq_none hpend))⟩
  have hsound := hready₂.toSound
  rw [hread] at hsound
  rw [write_spanned m lo z hq', read_write_lo m lo z hq', read_write_hi m lo z hq hq']
  exact hsound

theorem updateSpanned_runs (h : Sound m J M) (hpend : J.pend = none)
    (hlive : J.flagsLive = false) (hv : Denotes M v z) (hspan : spansCacheable b) :
    Runs maps J M (updateSpanned b v) fun _ J' M' =>
      Sound (ByteMemory.write m b z) J' M' ∧ Frame m ∅ J M J' M' := by
  obtain ⟨hseven, hlo, hhi⟩ := hspan
  have hunpin : Ready m ∅ J.unpinAll M :=
    ⟨sameEntries_unpinAll.sound rfl h, fun _ hs => hs.elim⟩
  refine .modify_bind ?_
  obtain ⟨J₁, hsame₁, hpend₁, hlive₁, hpin₁, heq₁⟩ := pinVal_eq v J.unpinAll
  refine .quiet_bind heq₁ ?_
  obtain ⟨J₂, htouch₂, heq₂⟩ := cacheFind_eq (b &&& ~~~7#64) J₁
  refine .quiet_bind heq₂ ?_
  obtain ⟨J₃, htouch₃, heq₃⟩ := cacheFind_eq ((b &&& ~~~7#64) + 8) J₂
  refine .quiet_bind heq₃ ?_
  set lo := b &&& ~~~7#64
  have hlo_of := fun hne => (h.lookup (a := lo) hne).2
  have hhi_of := fun hne => (h.lookup (a := lo + 8) hne).2
  have hlo_none := fun hnone v => h.no_entry (a := lo) (v := v) hnone
  have hhi_none := fun hnone v => h.no_entry (a := lo + 8) (v := v) hnone
  have hsame₁' := sameEntries_unpinAll.trans hsame₁
  have hsame₂ := hsame₁'.trans htouch₂.same
  rw [hsame₁'.lookup, hsame₂.lookup]
  generalize J.lookup lo = lv at hlo_of hlo_none ⊢
  generalize J.lookup (lo + 8) = hw at hhi_of hhi_none ⊢
  obtain ⟨J₄, hsame₄, hpend₄, hlive₄, hpin₄, heq₄⟩ := pinVal_eq lv J₃
  refine .quiet_bind heq₄ ?_
  obtain ⟨J₅, hsame₅, hpend₅, hlive₅, hpin₅, heq₅⟩ := pinVal_eq hw J₄
  refine .quiet_bind heq₅ ?_
  have hsame := ((hsame₂.trans htouch₃.same).trans hsame₄).trans hsame₅
  have hpend' : J₅.pend = J.pend := by
    rw [hpend₅, hpend₄, htouch₃.pend, htouch₂.pend, hpend₁]
    rfl
  have hlive' : J₅.flagsLive = J.flagsLive := by
    rw [hlive₅, hlive₄, htouch₃.live, htouch₂.live, hlive₁]
    rfl
  have hv_pin : ∀ s, Uses v s → (J₅.regs s).pinned = true := fun s hs =>
    hpin₅ s (Or.inl (hpin₄ s (Or.inl (by
      rw [htouch₃.pinned, htouch₂.pinned]
      exact hpin₁ s (Or.inr hs)))))
  have hlv_pin : ∀ s, Uses lv s → (J₅.regs s).pinned = true := fun s hs =>
    hpin₅ s (Or.inl (hpin₄ s (Or.inr hs)))
  have hhw_pin : ∀ s, Uses hw s → (J₅.regs s).pinned = true := fun s hs => hpin₅ s (Or.inr hs)
  have hframe : Frame m ∅ J M J₅ M := .quiet hpend' hlive'
  have hq : 0 < b.toNat % 8 := unaligned hseven
  have hb : b = lo + BitVec.ofNat 64 (b.toNat % 8) := eq_and_not_seven_add b
  have hlv : lv ≠ .none → Known lv (read m lo) J₅ M := fun hne => ⟨hlo_of hne, hlv_pin⟩
  have hhv : hw ≠ .none → Known hw (read m (lo + 8)) J₅ M := fun hne => ⟨hhi_of hne, hhw_pin⟩
  refine (updateBoth_runs (hsame.sound hpend' h) (hpend'.trans hpend) (hlive'.trans hlive) hlo hhi
    hq (Nat.mod_lt _ (by omega)) ⟨hv, hv_pin⟩ hlv (fun hnone v hv => hlo_none hnone v
      (hsame.entry.mp hv)) hhv fun hnone v hv => hhi_none hnone v (hsame.entry.mp hv)).imp ?_
  rintro _ J' M' ⟨hsound, hframe'⟩
  exact ⟨hb ▸ hsound, hframe.trans hframe'⟩

end Translator
end SubleqEmu
