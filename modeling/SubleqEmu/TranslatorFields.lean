import SubleqEmu.TranslatorLoads

/-!
# Fields and operands

The fields of an instruction, as values or in registers, and the operands that they
point to.
-/

namespace SubleqEmu
namespace Translator

open ByteMemory Subleq Emitter Machine

variable {maps : Maps} {m : Memory} {P P' : Set Reg} {J J' : Cache} {M M' : State}
  {a b p q : Word} {r s t : Reg} {v w : CVal} {x y : Word} {src : Source} {f : Field} {α : Type}

/-! ## Fields -/

/-- What `field` finds. -/
def fieldOf (src : Source) (J : Cache) (p : Word) : Field :=
  if src.dynamic p then
    match J.lookup p with
    | .const c => ⟨false, c, .none⟩
    | v => ⟨true, 0, v⟩
  else ⟨false, src.raw p, .none⟩

/-- A field that is `x`; one that is to be loaded is not the word of a store held back. -/
structure FieldKnown (f : Field) (p x : Word) (J : Cache) (M : State) : Prop where
  value : f.dyn = false → f.value = x
  cached : f.cached ≠ .none → Known f.cached x J M
  pend : f.dyn = true → f.cached = .none → J.pend ≠ some p

theorem fieldOf_sameEntries (h : SameEntries J J') : fieldOf src J' p = fieldOf src J p := by
  rw [fieldOf, h.lookup, fieldOf]

theorem lookup_of_fieldOf (hdyn : (fieldOf src J p).dyn = true) :
    J.lookup p = (fieldOf src J p).cached := by
  rw [fieldOf] at hdyn ⊢
  split_ifs at hdyn ⊢
  cases hlookup : J.lookup p with
  | const c =>
      rw [hlookup] at hdyn
      cases hdyn
  | _ => rfl

theorem fieldOf_dyn (hne : (fieldOf src J p).cached ≠ .none) : (fieldOf src J p).dyn = true := by
  rw [fieldOf] at hne ⊢
  split_ifs at hne ⊢
  · cases hlookup : J.lookup p with
    | const c =>
        rw [hlookup] at hne
        exact absurd rfl hne
    | _ => rfl
  · exact absurd rfl hne

theorem fieldOf_value (h : Sound m J M) (hraw : src.dynamic p = false → src.raw p = read m p)
    (hdyn : (fieldOf src J p).dyn = false) : (fieldOf src J p).value = read m p := by
  have hread := fun hne => (h.lookup (a := p) hne).2
  rw [fieldOf] at hdyn ⊢
  split_ifs at hdyn ⊢ with hsrc
  · cases hlookup : J.lookup p with
    | const c =>
        rw [hlookup] at hread
        exact hread nofun
    | _ =>
        rw [hlookup] at hdyn
        cases hdyn
  · exact hraw (by simpa using hsrc)

theorem fieldOf_known (h : Sound m J M) (hraw : src.dynamic p = false → src.raw p = read m p)
    (hpin : ∀ s, Uses (fieldOf src J p).cached s → (J.regs s).pinned = true) :
    FieldKnown (fieldOf src J p) p (read m p) J M := by
  rw [fieldOf] at hpin ⊢
  split_ifs at hpin ⊢ with hdyn
  · have hv := fun hne => (h.lookup (a := p) hne).2
    have hpend := fun hp => h.lookup_pend (a := p) hp
    cases hlookup : J.lookup p with
    | const c =>
        rw [hlookup] at hv
        exact ⟨fun _ => hv nofun, fun hne => absurd rfl hne, nofun⟩
    | none =>
        rw [hlookup] at hpend
        exact ⟨nofun, fun hne => absurd rfl hne, fun _ _ hp => hpend hp rfl⟩
    | reg s =>
        rw [hlookup] at hv hpin
        exact ⟨nofun, fun _ => ⟨hv nofun, hpin⟩, fun _ hne => nomatch hne⟩
    | neg s =>
        rw [hlookup] at hv hpin
        exact ⟨nofun, fun _ => ⟨hv nofun, hpin⟩, fun _ hne => nomatch hne⟩
  · exact ⟨fun _ => hraw (by simpa using hdyn), fun hne => absurd rfl hne, nofun⟩

theorem Keeps.fieldKnown (h : Keeps m P J M J' M') (hf : FieldKnown f p x J M)
    (huse : ∀ s, Uses f.cached s → s ∈ P) : FieldKnown f p x J' M' where
  value := hf.value
  cached hne := h.known (hf.cached hne) huse
  pend hdyn hnone hp := by
    rcases h.pend with heq | heq
    · exact hf.pend hdyn hnone (heq.symm.trans hp)
    · rw [heq] at hp
      cases hp

theorem field_eq (src : Source) (p : Word) (J : Cache) :
    ∃ J', SameEntries J J' ∧ J'.pend = J.pend ∧ J'.flagsLive = J.flagsLive ∧
      (∀ r, (J.regs r).pinned = true ∨ Uses (fieldOf src J p).cached r →
        (J'.regs r).pinned = true) ∧
      field src p J = some (fieldOf src J p, J', []) := by
  rw [field, fieldOf]
  split_ifs with hdyn
  · obtain ⟨J₁, htouch, heq⟩ := cacheFind_eq p J
    rw [bind_of_quiet heq]
    have hconst : ∀ r, (J.regs r).pinned = true → (J₁.regs r).pinned = true :=
      fun r hr => (htouch.pinned r).trans hr
    have hother : ∀ v, ∃ J', SameEntries J J' ∧ J'.pend = J.pend ∧ J'.flagsLive = J.flagsLive ∧
        (∀ r, (J.regs r).pinned = true ∨ Uses v r → (J'.regs r).pinned = true) ∧
        (do
          pinVal v
          return (⟨true, 0, v⟩ : Field) : T Field) J₁ = some (⟨true, 0, v⟩, J', []) := by
      intro v
      obtain ⟨J₂, hsame, hpend, hlive, hpin, heq⟩ := pinVal_eq v J₁
      refine ⟨J₂, htouch.same.trans hsame, hpend.trans htouch.pend, hlive.trans htouch.live,
        fun r hr => hpin r (hr.imp_left (hconst r)), ?_⟩
      rw [bind_of_quiet heq]
      rfl
    cases J.lookup p with
    | const c => exact ⟨J₁, htouch.same, htouch.pend, htouch.live,
        fun r hr => hconst r (hr.resolve_right not_uses_none), rfl⟩
    | none => exact hother .none
    | reg s => exact hother (.reg s)
    | neg s => exact hother (.neg s)
  · exact ⟨J, ⟨fun _ => rfl, rfl, rfl⟩, rfl, rfl,
      fun r hr => hr.resolve_right not_uses_none, rfl⟩

theorem fieldReg_emits (h : Ready m P J M) (hc : Current m J M) (hp : p.toNat % 8 = 0)
    (hf : FieldKnown f p (read m p) J M) (hdyn : f.dyn = true)
    (hfor : f.cached = .none → ∀ s ∈ P, NotFor J p s) :
    Emits maps m P J M (fieldReg p f) fun r J' M' =>
      M'.reg r = read m p ∧ (J'.regs r).pinned = true ∧ (f.cached = .reg r ∧ J' = J ∨
        f.cached = .none ∧ r ∉ P ∧ (∀ q ≠ p, NotFor J' q r) ∨
        (∀ s, f.cached ≠ .reg s) ∧ Fresh (keeping P f.cached) r J') := by
  have hnew : ∀ v, f.cached = v → v ≠ .none → Emits maps m P J M (toReg v) fun r J' M' =>
      M'.reg r = read m p ∧ (J'.regs r).pinned = true ∧ (f.cached = .reg r ∧ J' = J ∨
        f.cached = .none ∧ r ∉ P ∧ (∀ q ≠ p, NotFor J' q r) ∨
        (∀ s, f.cached ≠ .reg s) ∧ Fresh (keeping P f.cached) r J') := by
    rintro v rfl hne
    have hv := hf.cached hne
    refine .mono_set ((toReg_known h hv).imp fun r J' M' hkeep hr => ⟨hr.1, ?_⟩) subset_keeping
    rcases hr.2 with ⟨hreg, rfl⟩ | ⟨hneg, hfresh⟩
    · exact ⟨hv.pinned r (Or.inl hreg), Or.inl ⟨hreg, rfl⟩⟩
    · exact ⟨hfresh.pinned, Or.inr (Or.inr ⟨hneg, hfresh⟩)⟩
  obtain ⟨dyn, value, cached⟩ := f
  cases cached with
  | none =>
      refine .bind (scratch_emits h) fun r J₁ M₁ hkeep₁ hfresh => ?_
      refine .bind (loadStatic_emits hkeep₁.ready hfresh) ?_
      rintro _ _ M₂ hkeep₂ ⟨rfl, hreg⟩
      have hkeep := hkeep₁.trans hkeep₂
      rw [(hkeep₁.current hc).read_eq fun q hq => ?_] at hreg
      · have hbind := hkeep.ready.bindReg hfresh hreg
          fun s hs => hkeep.notFor hs (hfor rfl s hs)
        refine .modify_bind hbind (.pure hbind.ready ⟨hreg, ?_, Or.inr (Or.inl
          ⟨rfl, hfresh.notMem, fun q hq => bindReg_notFor hfresh.free hq⟩)⟩)
        rw [bindReg_pinned]
        exact hfresh.pinned
      · have haligned := aligned_of_cacheable (hkeep₁.ready.pend hq).1
        refine apart_of_ne haligned hp ?_
        rintro rfl
        exact (hkeep₁.fieldKnown hf fun s hs => absurd hs not_uses_none).pend hdyn rfl hq
  | _ => exact hnew _ rfl nofun

/-! ## Operands -/

/-- A value from memory, in a register of its own. -/
theorem loadThrough_emits (h : Ready m P J M) (hc : Current m J M) (hr : M.reg r = a)
    (hpin : (J.regs r).pinned = true) :
    Emits maps m P J M (loadThrough r) fun v J' M' =>
      J'.pend = none ∧ ∃ t, v = .reg t ∧ M'.reg t = read m a ∧ Fresh (insert r P) t J' := by
  have hsub := Set.subset_insert r P
  refine .bind_in (flushPending_emits (h.insert hpin)) hsub fun _ J₁ M₁ hkeep₁ hnone => ?_
  refine .bind_in (scratch_emits hkeep₁.ready) hsub fun t J₂ M₂ hkeep₂ hfresh => ?_
  have hkeep := hkeep₁.trans hkeep₂
  have haddr : M₂.address (.reg r) 0 = a := by
    rw [address_reg, hkeep.reg r (Set.mem_insert r P), hr]
  have hpend := hkeep₂.pend_eq_none hnone
  refine .bind_in (loadMem_emits hkeep₂.ready hfresh haddr) hsub ?_
  rintro _ _ M₃ hkeep₃ ⟨rfl, hreg⟩
  rw [(hkeep.current hc).mem_eq hpend] at hreg
  exact .pure (hkeep₃.ready.mono hsub) ⟨hpend, t, rfl, hreg, hfresh⟩

theorem operandA_emits (h : Ready m P J M) (hc : Current m J M) (hlive : J.flagsLive = false)
    (hp : p.toNat % 8 = 0) (hf : FieldKnown f p (read m p) J M)
    (hfor : f.dyn = true → f.cached = .none → ∀ s ∈ P, NotFor J p s) :
    Emits maps m P J M (operandA p f) fun v J' M' => Known v (read m (read m p)) J' M' := by
  rw [operandA]
  cases hdyn : f.dyn with
  | false =>
      rw [← hf.value hdyn]
      exact (getStatic_emits h hc hlive).imp fun _ _ _ _ hv => hv.1
  | true =>
      refine .bind (fieldReg_emits h hc hp hf hdyn (hfor hdyn)) fun r J₁ M₁ hkeep₁ hr => ?_
      refine (loadThrough_emits hkeep₁.ready (hkeep₁.current hc) hr.1 hr.2.1).imp ?_
      rintro _ J₂ M₂ - ⟨-, t, rfl, hreg, hfresh⟩
      exact known_reg hreg hfresh.pinned

/-- The registers in use, and one more if there is one. -/
def withReg (P : Set Reg) (o : Option Reg) : Set Reg := {s | s ∈ P ∨ o = some s}

/-- A register that holds the value, if there is one. -/
structure Holds (o : Option Reg) (x : Word) (J : Cache) (M : State) : Prop where
  reg : ∀ r, o = some r → M.reg r = x
  pinned : ∀ r, o = some r → (J.regs r).pinned = true

theorem Ready.withReg {o : Option Reg} (h : Ready m P J M) (ho : Holds o x J M) :
    Ready m (withReg P o) J M :=
  ⟨h.toSound, fun s hs => hs.elim (h.pinned s) (ho.pinned s)⟩

theorem Keeps.holds {o : Option Reg} (h : Keeps m P J M J' M') (ho : Holds o x J M)
    (hP : ∀ r, o = some r → r ∈ P) : Holds o x J' M' :=
  ⟨fun r hr => (h.reg r (hP r hr)).trans (ho.reg r hr), fun r hr => h.ready.pinned r (hP r hr)⟩

theorem operandB_emits {rb : Option Reg} (h : Ready m P J M) (hc : Current m J M)
    (hlive : J.flagsLive = false) (hrb : Holds rb b J M) (hvalue : rb = none → f.value = b) :
    Emits maps m P J M (operandB f rb) fun v J' M' =>
      Known v (read m b) J' M' ∧
        (rb = none → b &&& 7 = 0 → J.lookup b ≠ .none → v = J.lookup b) ∧
        ∀ r, rb = some r → J'.pend = none ∧ ∃ t, v = .reg t ∧ Fresh (insert r P) t J' := by
  cases rb with
  | none =>
      rw [← hvalue rfl]
      exact (getStatic_emits h hc hlive).imp fun _ _ _ _ hv => ⟨hv.1, fun _ => hv.2, nofun⟩
  | some r =>
      refine (loadThrough_emits h hc (hrb.reg r rfl) (hrb.pinned r rfl)).imp ?_
      rintro _ J₁ M₁ - ⟨hnone, t, rfl, hreg, hfresh⟩
      refine ⟨known_reg hreg hfresh.pinned, nofun, ?_⟩
      rintro _ ⟨⟩
      exact ⟨hnone, t, rfl, hfresh⟩

theorem readC_emits (h : Ready m P J M) (hc : Current m J M) (hp : (p + 16).toNat % 8 = 0)
    (hf : FieldKnown f (p + 16) x J M) (hx : x = read m (p + 16)) :
    Emits maps m P J M (readC p f) fun rc J' M' =>
      Holds rc x J' M' ∧ rc.isSome = f.dyn ∧
        ∀ r, rc = some r → f.cached = .reg r ∨ (∀ s, f.cached ≠ .reg s) ∧ Fresh P r J' := by
  obtain ⟨dyn, value, cached⟩ := f
  cases dyn with
  | false => exact .pure h ⟨⟨nofun, nofun⟩, rfl, nofun⟩
  | true =>
      have hsome : ∀ {r J' M'}, M'.reg r = x → (J'.regs r).pinned = true →
          Holds (some r) x J' M' := fun hreg hpin =>
        ⟨fun _ heq => Option.some.inj heq ▸ hreg, fun _ heq => Option.some.inj heq ▸ hpin⟩
      have hnew : ∀ v, cached = v → v ≠ .none → Emits maps m P J M (do
          let r ← toReg v
          return some r) fun rc J' M' => Holds rc x J' M' ∧ rc.isSome = true ∧
            ∀ r, rc = some r → cached = .reg r ∨ (∀ s, cached ≠ .reg s) ∧ Fresh P r J' := by
        rintro v rfl hne
        have hv := hf.cached hne
        refine .bind_in (toReg_known h hv) subset_keeping fun t J₁ M₁ hkeep ht => ?_
        have hready := hkeep.ready.mono subset_keeping
        obtain ⟨htx, ⟨hreg, rfl⟩ | ⟨hneg, hfresh⟩⟩ := ht
        · refine .pure hready ⟨hsome htx (hv.pinned t (Or.inl hreg)), rfl, ?_⟩
          rintro _ ⟨⟩
          exact Or.inl hreg
        · refine .pure hready ⟨hsome htx hfresh.pinned, rfl, ?_⟩
          rintro _ ⟨⟩
          exact Or.inr ⟨hneg, hfresh.mono subset_keeping⟩
      cases cached with
      | none =>
          refine .bind (scratch_emits h) fun r J₁ M₁ hkeep₁ hfresh => ?_
          refine .bind (loadStatic_emits hkeep₁.ready hfresh) ?_
          rintro _ _ M₂ hkeep₂ ⟨rfl, hreg⟩
          rw [(hkeep₁.current hc).read_eq fun q hq => ?_, ← hx] at hreg
          · refine .pure hkeep₂.ready ⟨hsome hreg hfresh.pinned, rfl, ?_⟩
            rintro _ ⟨⟩
            exact Or.inr ⟨nofun, hfresh⟩
          · have haligned := aligned_of_cacheable (hkeep₁.ready.pend hq).1
            refine apart_of_ne haligned hp ?_
            rintro rfl
            exact (hkeep₁.fieldKnown hf fun s hs => absurd hs not_uses_none).pend rfl rfl hq
      | _ => exact hnew _ rfl nofun

end Translator
end SubleqEmu
