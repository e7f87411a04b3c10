import SubleqEmu.TranslatorSound

/-!
# Taking registers and storing what is held back

`scratch` hands out a register that nothing stands for, after a store of what was held
back in it; `flush_pending` does that store.
-/

namespace SubleqEmu
namespace Translator

open ByteMemory Subleq Emitter Machine

variable {maps : Maps} {m : Memory} {P P' : Set Reg} {J J' : Cache} {M : State}
  {a b : Word} {r s t : Reg} {v : CVal} {x y : Word} {c : List Insn} {u : Unit} {fl : T Unit}
  {α : Type}

/-! ## Lookups -/

/-- A lookup changes only the order of use. -/
structure Touched (J J' : Cache) : Prop where
  same : SameEntries J J'
  pend : J'.pend = J.pend
  live : J'.flagsLive = J.flagsLive
  pinned : ∀ r, (J'.regs r).pinned = (J.regs r).pinned

theorem Touched.refl (J : Cache) : Touched J J :=
  ⟨⟨fun _ => rfl, rfl, rfl⟩, rfl, rfl, fun _ => rfl⟩

theorem touched_touch : Touched J (J.touch r) :=
  ⟨sameEntries_touch, rfl, rfl, fun _ => touch_pinned⟩

theorem Touched.keeps (h : Touched J J') (hr : Ready m P J M) : Keeps m P J M J' M :=
  h.same.keeps hr h.pend h.live fun r _ hp => (h.pinned r).trans hp

theorem cacheFind_eq (a : Word) (J : Cache) :
    ∃ J', Touched J J' ∧ cacheFind a J = some (J.lookup a, J', []) := by
  rw [cacheFind, getState_bind]
  cases J.lookup a with
  | reg r => exact ⟨_, touched_touch, rfl⟩
  | neg r => exact ⟨_, touched_touch, rfl⟩
  | none => exact ⟨_, .refl J, rfl⟩
  | const _ => exact ⟨_, .refl J, rfl⟩

theorem Emits.cacheFind_bind {f : CVal → T α} {Q : α → Cache → State → Prop}
    (h : Ready m P J M)
    (hf : ∀ J', Touched J J' → Keeps m P J M J' M → Emits maps m P J' M (f (J.lookup a)) Q) :
    Emits maps m P J M (cacheFind a >>= f) Q := by
  obtain ⟨J', htouch, heq⟩ := cacheFind_eq a J
  intro _ _ _ hres
  rw [bind_of_quiet heq] at hres
  have hkeep := htouch.keeps h
  obtain ⟨M', hrun, hkeep', hQ⟩ := hf J' htouch hkeep hres
  exact ⟨M', hrun, hkeep.trans hkeep', hQ⟩

theorem pinVal_eq (v : CVal) (J : Cache) :
    ∃ J', SameEntries J J' ∧ J'.pend = J.pend ∧ J'.flagsLive = J.flagsLive ∧
      (∀ r, (J.regs r).pinned = true ∨ Uses v r → (J'.regs r).pinned = true) ∧
      pinVal v J = some ((), J', []) := by
  have hpin : ∀ s r, (J.regs r).pinned = true ∨ r = s → ((J.pin s).regs r).pinned = true := by
    intro s r hr
    rw [pin_pinned, Bool.or_eq_true, decide_eq_true_eq]
    exact hr.symm
  cases v with
  | reg s =>
      exact ⟨_, sameEntries_pin, rfl, rfl, fun r hr => hpin s r (hr.imp_right uses_reg.mp), rfl⟩
  | neg s =>
      exact ⟨_, sameEntries_pin, rfl, rfl, fun r hr => hpin s r (hr.imp_right uses_neg.mp), rfl⟩
  | none => exact ⟨J, ⟨fun _ => rfl, rfl, rfl⟩, rfl, rfl,
      fun r hr => hr.resolve_right not_uses_none, rfl⟩
  | const _ => exact ⟨J, ⟨fun _ => rfl, rfl, rfl⟩, rfl, rfl,
      fun r hr => hr.resolve_right not_uses_const, rfl⟩

theorem Emits.pinVal_bind {f : Unit → T α} {Q : α → Cache → State → Prop} (h : Ready m P J M)
    (hf : ∀ J', SameEntries J J' → Keeps m P J M J' M →
      (∀ s, (J.regs s).pinned = true ∨ Uses v s → (J'.regs s).pinned = true) →
      Emits maps m P J' M (f ()) Q) :
    Emits maps m P J M (pinVal v >>= f) Q := by
  obtain ⟨J', hsame, hpend, hlive, hpin, heq⟩ := pinVal_eq v J
  intro _ _ _ hres
  rw [bind_of_quiet heq] at hres
  have hkeep := hsame.keeps h hpend hlive fun r _ hr => hpin r (Or.inl hr)
  obtain ⟨M', hrun, hkeep', hQ⟩ := hf J' hsame hkeep hpin hres
  exact ⟨M', hrun, hkeep.trans hkeep', hQ⟩

theorem Sound.lookup (hs : Sound m J M) (h : J.lookup a ≠ .none) :
    cacheable a = true ∧ Denotes M (J.lookup a) (read m a) :=
  hs.entry (lookup_entry h)

theorem Sound.no_entry (hs : Sound m J M) (h : J.lookup a = .none) : ¬ Entry J a v :=
  fun hv => lookup_ne_none (hs.entry hv).1 hv h

theorem SameEntries.lookup (h : SameEntries J J') : J'.lookup a = J.lookup a := by
  unfold Cache.lookup Cache.findConst Cache.findReg Cache.findAlias
  simp only [h.consts, h.regs, h.aliases]

theorem Sound.lookup_pend (hs : Sound m J M) (h : J.pend = some a) :
    J.lookup a ≠ .none := by
  obtain ⟨hcache, v, hv⟩ := hs.pend h
  exact lookup_ne_none hcache hv

/-! ## Scratch registers -/

/-- A register that nothing else uses. -/
structure Fresh (P : Set Reg) (r : Reg) (J : Cache) : Prop where
  notMem : r ∉ P
  pinned : (J.regs r).pinned = true
  free : Free J r

/-- What a flush is for. -/
def FlushOk (maps : Maps) (m : Memory) (fl : T Unit) : Prop :=
  ∀ ⦃P J M⦄, Ready m P J M → Emits maps m P J M fl fun _ J' _ => J'.pend = none

theorem Ready.forget (h : Ready m P J M) (hr : r ∉ P)
    (hp : ∀ a, J.pend = some a → ∃ v, Entry J a v ∧ ¬ Uses v r) :
    Keeps m P J M (J.forget r) M where
  ready := {
    entry hv := h.entry (entry_forget.mp hv).1
    unique hv hw := h.unique (entry_forget.mp hv).1 (entry_forget.mp hw).1
    pend {a} hpa := by
      obtain ⟨v, hv, hr⟩ := hp a hpa
      exact ⟨(h.pend hpa).1, v, entry_forget.mpr ⟨hv, hr⟩⟩
    pinned s hs := by
      simp only [forget_pinned]
      exact h.pinned s hs }
  reg _ _ := rfl
  addr s hs := forget_addr fun heq => hr (heq ▸ hs)
  names s hs a n := by
    have hne : s ≠ r := fun heq => hr (heq ▸ hs)
    rw [alias_forget, and_iff_left hne]
  live := rfl
  flags _ := rfl
  pend := Or.inl rfl
  init := rfl
  stores := rfl

/-- After the flush what is held back is not in the register. -/
theorem flushHeld_emits (hfl : J.pend = none ∨ FlushOk maps m fl) (h : Ready m P J M) :
    Emits maps m P J M (flushHeld fl r) fun _ J' _ =>
      ∀ a, J'.pend = some a → ∃ v, Entry J' a v ∧ ¬ Uses v r := by
  refine .getState ?_
  cases hpend : J.pend with
  | none => exact .pure h fun a ha => by simp [hpend] at ha
  | some a =>
      refine .cacheFind_bind h fun J₁ htouch hkeep => ?_
      unfold onlyIf
      split_ifs with huse
      · have hok : FlushOk maps m fl := hfl.resolve_left (by rw [hpend]; nofun)
        refine (hok hkeep.ready).imp fun _ J' _ _ hnone b hb => ?_
        rw [hnone] at hb
        cases hb
      · refine .pure hkeep.ready fun b hb => ?_
        rw [htouch.pend, hpend] at hb
        obtain rfl := Option.some.inj hb
        have hentry := lookup_entry (h.lookup_pend hpend)
        exact ⟨_, htouch.same.entry.mpr hentry, huse⟩

theorem release_emits (hfl : J.pend = none ∨ FlushOk maps m fl) (h : Ready m P J M)
    (hr : r ∉ P) (hpin : (J.regs r).pinned = true) :
    Emits maps m P J M (release fl r) fun _ J' _ => Fresh P r J' :=
  .bind_in (flushHeld_emits hfl (h.insert hpin)) (Set.subset_insert r P)
    fun _ _ _ hkeep hpend =>
      have hready := hkeep.ready.mono (Set.subset_insert r P)
      have hpin' := hkeep.ready.pinned r (Set.mem_insert r P)
      .modify (hready.forget hr hpend) ⟨hr, forget_pinned.trans hpin', free_forget⟩

theorem pick_not_pinned {best : Option Reg} {l : List Reg}
    (hbest : ∀ b, best = some b → (J.regs b).pinned = false)
    (h : J.pick best l = some r) : (J.regs r).pinned = false := by
  induction l generalizing best with
  | nil => exact hbest r h
  | cons s rest ih =>
      rw [Cache.pick.eq_def] at h
      simp only at h
      split_ifs at h with hpin hfree
      · exact ih hbest h
      · obtain rfl := Option.some.inj h
        simpa using hpin
      · refine ih (fun b hb => ?_) h
        cases best with
        | none =>
            obtain rfl := Option.some.inj hb
            simpa using hpin
        | some b' =>
            simp only at hb
            split_ifs at hb
            · obtain rfl := Option.some.inj hb
              simpa using hpin
            · exact hbest b hb

theorem Keeps.fresh (h : Keeps m (insert r P) J M J' M₁) (hr : Fresh P r J) : Fresh P r J' :=
  ⟨hr.notMem, h.ready.pinned r (Set.mem_insert r P), h.free (Set.mem_insert r P) hr.free⟩

theorem scratchWith_emits (hfl : J.pend = none ∨ FlushOk maps m fl) (h : Ready m P J M) :
    Emits maps m P J M (scratchWith fl) fun r J' _ => Fresh P r J' := by
  refine .getState ?_
  cases hpick : J.pick none (List.finRange 11) with
  | none => exact .fail
  | some t =>
      have hout := pick_not_pinned (fun b hb => by cases hb) hpick
      have hkeep := h.pin t
      refine .modify_bind hkeep ?_
      refine (release_emits (J := J.pin t) hfl hkeep.ready (fun ht => ?_) (by simp)).bind
        fun _ J' M' hkeep' hfresh => .pure hkeep'.ready hfresh
      rw [h.pinned t ht] at hout
      cases hout

/-! ## Values in registers -/

theorem negate_emits (h : Ready m P J M) (hr : r ∉ P) (hfree : Free J r) :
    Emits maps m P J M (negate r) fun _ J' M' => J' = J ∧ M'.reg r = -M.reg r := by
  refine .getState ?_
  split_ifs with hlive
  · refine .emit rfl (h.set hr hfree _ fun hl => ?_) ⟨rfl, set_setFlags_reg _⟩
    rw [hl] at hlive
    cases hlive
  · have hnot := h.move hr hfree (~~~M.reg r)
    have hneg : ~~~M.reg r + 1 = -M.reg r := (BitVec.neg_eq_not_add (M.reg r)).symm
    refine .emit_bind rfl hnot ?_
    refine .emit rfl (hnot.ready.move hr hfree _) ⟨rfl, ?_⟩
    rw [set_reg, set_reg]
    exact hneg

/-- The register of `to_reg` holds the value, and is a new one but for a register. -/
theorem toRegWith_emits (hfl : J.pend = none ∨ FlushOk maps m fl) (h : Ready m P J M)
    (hv : Denotes M v x) (huse : ∀ s, Uses v s → s ∈ P) :
    Emits maps m P J M (toRegWith fl v) fun t J' M' =>
      M'.reg t = x ∧ (v = .reg t ∧ J' = J ∨ (∀ s, v ≠ .reg s) ∧ Fresh P t J') := by
  cases v with
  | none => exact hv.elim
  | reg s => exact .pure h ⟨hv, Or.inl ⟨rfl, rfl⟩⟩
  | const y =>
      refine (scratchWith_emits hfl h).bind fun t J' M' hkeep hfresh => ?_
      have hset := hkeep.ready.move hfresh.notMem hfresh.free y
      exact .emit_bind rfl hset (.pure hset.ready ⟨set_reg.trans hv, Or.inr ⟨nofun, hfresh⟩⟩)
  | neg s =>
      have hs := huse s (Or.inr rfl)
      have hpin := h.pin s
      refine .modify_bind hpin ?_
      refine (scratchWith_emits (J := J.pin s) hfl hpin.ready).bind fun t J' M' hkeep hfresh => ?_
      have hset := hkeep.ready.move hfresh.notMem hfresh.free (M'.reg s)
      refine .emit_bind rfl hset ?_
      refine (negate_emits hset.ready hfresh.notMem hfresh.free).bind ?_
      rintro _ _ M₂ hkeep₂ ⟨rfl, hreg⟩
      refine .pure hkeep₂.ready ⟨?_, Or.inr ⟨nofun, hfresh⟩⟩
      rw [hreg, set_reg, hkeep.reg s hs]
      exact hv

end Translator
end SubleqEmu
