import SubleqEmu.TranslatorChecks
import SubleqEmu.TranslatorResults

/-!
# From the fields to the result

The operands, a dynamic C and the subtraction, one after the other; and the register
of C that the subtraction is done in.
-/

namespace SubleqEmu
namespace Translator

open ByteMemory Subleq Emitter Machine

variable {maps : Maps} {m : Memory} {P : Set Reg} {J J' J₁ : Cache} {M M' : State}
  {a b c p x y : Word} {r : Reg} {va vb : CVal} {fa fb fc : Field} {rb : Option Reg}
  {branch pendable : Bool}

/-! ## The subtraction, after a store held back -/

/-- What is held back after the subtraction. -/
def Yields (fb : Word) (pendable : Bool) (res : Result) (J : Cache) : Prop :=
  res.unchanged = false → J.pend = none ∨ pendable = true ∧ J.pend = some fb

theorem flushBefore_emits (h : Ready m P J M)
    (hz : ¬ (va = .const 0 ∧ ∀ d, vb ≠ .const d)) (fb : Word) :
    Emits maps m P J M (flushBefore fb pendable va vb) fun _ J' _ =>
      J'.pend = none ∨ pendable = true ∧ J'.pend = some fb := by
  refine .getState ?_
  have hz' : ¬ (va = .const 0 ∧ (!CVal.isConst vb) = true) := by
    rintro ⟨ha, hb⟩
    refine hz ⟨ha, ?_⟩
    rintro d rfl
    cases hb
  unfold onlyIf
  split_ifs with hflush
  · exact (flushPending_emits h).imp fun _ _ _ _ hnone => Or.inl hnone
  · refine .pure h (Or.inr ?_)
    have hkept := not_and.mp hflush hz'
    simpa using hkept

theorem flushBefore_zero (hz : va = .const 0 ∧ ∀ d, vb ≠ .const d) (fb : Word) (J : Cache) :
    flushBefore fb pendable va vb J = some ((), J, []) := by
  obtain ⟨rfl, hconst⟩ := hz
  have hb : (!CVal.isConst vb) = true := by
    cases vb with
    | const d => exact absurd rfl (hconst d)
    | _ => rfl
  rw [flushBefore, getState_bind, onlyIf, if_neg fun hflush => hflush.1 ⟨rfl, hb⟩]
  rfl

theorem Keeps.aliased (h : Keeps m P J M J' M') (hr : r ∈ P) : J'.aliased r = J.aliased r := by
  rw [Bool.eq_iff_iff, aliased_iff, aliased_iff]
  simp only [h.names r hr]

theorem Keeps.mayOverwrite {dynb : Bool} {fb : Word} (h : Keeps m P J M J' M')
    (huse : ∀ s, Uses vb s → s ∈ P) :
    MayOverwrite J' dynb fb vb r ↔ MayOverwrite J dynb fb vb r := by
  refine and_congr_right fun hr => ?_
  have hrP := huse r (Or.inl hr)
  rw [h.aliased hrP, h.addr r hrP]

theorem operation_computes {dynb : Bool} {fb : Word} (h : Ready m P J M) (ha : Known va x J M)
    (hb : Known vb y J M) (hlive : J.flagsLive = false)
    (hP : ∀ r ∈ P, ¬ MayOverwrite J dynb fb vb r) :
    Computes maps m dynb fb (y - x) P J M (do
      flushBefore fb pendable va vb
      compute dynb fb branch va vb) fun res J' M' =>
        ResultOk branch va x y res J' M' ∧ Yields fb pendable res J' ∧
          (branch = true → ∀ r, MayOverwrite J dynb fb vb r → res.value = .reg r) := by
  by_cases hz : va = .const 0 ∧ ∀ d, vb ≠ .const d
  · obtain ⟨rfl, hconst⟩ := hz
    obtain rfl : 0 = x := ha.denotes
    refine Runs.quiet_bind (flushBefore_zero ⟨rfl, hconst⟩ fb J) ?_
    rw [compute_const hconst, if_pos rfl]
    refine ((unchanged_emits h hb hlive hconst).imp fun res J₁ M₁ _ hres => ?_).computes
    refine ⟨hres.1, fun hchanged => ?_, fun _ r hr => hres.2.2.trans hr.1⟩
    rw [hres.2.1] at hchanged
    cases hchanged
  · have hsub : P ⊆ keeping (keeping P va) vb := subset_keeping.trans subset_keeping
    refine .bind_in (flushBefore_emits ((h.keeping ha).keeping hb) hz fb) hsub
      fun _ J₁ M₁ hkeep hpend => ?_
    have hmay : ∀ r, MayOverwrite J₁ dynb fb vb r ↔ MayOverwrite J dynb fb vb r :=
      fun r => hkeep.mayOverwrite fun s hs => Or.inr hs
    have ha₁ := hkeep.known ha fun s hs => subset_keeping (Or.inr hs)
    have hb₁ := hkeep.known hb fun s hs => Or.inr hs
    refine (compute_computes (hkeep.ready.mono hsub) ha₁ hb₁ (hkeep.live.trans hlive)
      fun r hr => (hmay r).not.mpr (hP r hr)).imp_computed fun res J₂ M₂ hcomp hres => ?_
    refine ⟨hres.1, fun _ => ?_, fun hbranch r hr => hres.2 hbranch r ((hmay r).mpr hr)⟩
    rcases hcomp.pend with heq | hnone
    · rwa [heq]
    · exact Or.inl hnone

/-! ## What the instruction does -/

/-- The operands of the instruction at `p`. -/
abbrev operandOf (m : Memory) (p : Word) : Word := read m (read m p)

abbrev difference (m : Memory) (p : Word) : Word := operandOf m (p + 8) - operandOf m p

abbrev after (m : Memory) (p : Word) : Memory := write m (read m (p + 8)) (difference m p)

/-- C's register takes the result: it stands for C's word only, which is B's target, and
the subtraction is not known to be that of a word from itself. -/
structure Spoils (J : Cache) (q : Word) (fa fb fc : Field) (r : Reg) : Prop where
  dyn : fc.dyn = true
  creg : fc.cached = .reg r
  target : fb.dyn = false ∧ fb.value = q
  addr : (J.regs r).addr = some q
  aliased : J.aliased r = false
  other : ¬ (fa.dyn = false ∧ fa.value = q)

/-- What is known of an instruction before its operands are read. -/
structure FieldsKnown (m : Memory) (P : Set Reg) (p : Word) (fa fb fc : Field) (rb : Option Reg)
    (J : Cache) (M : State) : Prop where
  a : FieldKnown fa p (read m p) J M
  notFor : fa.dyn = true → fa.cached = .none → ∀ s ∈ P, NotFor J p s
  value : fb.dyn = false → fb.value = read m (p + 8)
  target : Holds rb (read m (p + 8)) J M
  isSome : rb.isSome = fb.dyn
  mem : ∀ r, rb = some r → r ∈ P
  c : FieldKnown fc (p + 16) (read m (p + 16)) J M
  uses : ∀ s, Uses fc.cached s → s ∈ P
  entry : ∀ r, fc.cached = .reg r → Entry J (p + 16) (.reg r)

/-- The result of the instruction, with a dynamic C in a register. -/
structure Resulted (m : Memory) (p : Word) (fa fb fc : Field) (J : Cache) (q : Result × Option Reg)
    (J' : Cache) (M' : State) : Prop where
  value : Known q.1.value (difference m p) J' M'
  unchanged : q.1.unchanged = true → operandOf m p = 0 ∧ ∀ d, q.1.value ≠ .const d
  taken : ∀ t, q.1.taken = some t → t = (operandOf m (p + 8)).sle (operandOf m p)
  decides : q.1.taken = none → (fc.dyn = true ∨ fc.value ≠ p + 24) →
    Decides M' (operandOf m (p + 8)) (operandOf m p)
  held : q.1.unchanged = false →
    Sound m J' M' ∨ J'.pend = none ∨ J'.pend = some fb.value
  isSome : q.2.isSome = fc.dyn
  pinned : ∀ r, q.2 = some r → (J'.regs r).pinned = true
  creg : ∀ r, q.2 = some r → ¬ Spoils J (p + 16) fa fb fc r → M'.reg r = read m (p + 16)
  spoils : ∀ r, Spoils J (p + 16) fa fb fc r → q.2 = some r ∧ q.1.value = .reg r

/-- C's register takes the result just where it stands for B's word alone. -/
theorem mayOverwrite_iff_spoils (hkeep : Keeps m P J M J' M')
    (hf : FieldsKnown m P p fa fb fc rb J M) (hdyn : fc.dyn = true)
    (hsame : ¬ (fa.dyn = false ∧ fb.dyn = false ∧ fa.value = fb.value))
    (horigin : fc.cached = .reg r ∨ (∀ s, fc.cached ≠ .reg s) ∧ ¬ Uses vb r)
    (hlookup : Spoils J (p + 16) fa fb fc r → vb = .reg r) :
    MayOverwrite J' fb.dyn fb.value vb r ↔ Spoils J (p + 16) fa fb fc r := by
  constructor
  · rintro ⟨hvb, haliased, haddr⟩
    rcases horigin with hcreg | ⟨-, hnot⟩
    · have hr := hf.uses r (Or.inl hcreg)
      rw [hkeep.aliased hr] at haliased
      rw [hkeep.addr r hr] at haddr
      have hentry : (J.regs r).addr = some (p + 16) := by
        refine (hf.entry r hcreg).resolve_right fun hname => ?_
        rw [aliased_iff.mpr ⟨_, _, hname⟩] at haliased
        cases haliased
      rw [hentry] at haddr
      rcases haddr with haddr | ⟨hdynb, haddr⟩
      · cases haddr
      · have hvalue := (Option.some.inj haddr).symm
        exact ⟨hdyn, hcreg, ⟨hdynb, hvalue⟩, hentry, haliased,
          fun ha => hsame ⟨ha.1, hdynb, ha.2.trans hvalue.symm⟩⟩
    · exact absurd (Or.inl hvb) hnot
  · intro hs
    have hr := hf.uses r (Or.inl hs.creg)
    refine ⟨hlookup hs, (hkeep.aliased hr).trans hs.aliased, Or.inr ⟨hs.target.1, ?_⟩⟩
    rw [hkeep.addr r hr, hs.addr, hs.target.2]

theorem Spoils.lookup (hs : Spoils J (p + 16) fa fb fc r) (hf : FieldsKnown m P p fa fb fc rb J M)
    (hkeep : Keeps m P J M J' M') : J'.lookup (p + 16) = .reg r := by
  have hr := hf.uses r (Or.inl hs.creg)
  have hentry : Entry J' (p + 16) (.reg r) := Or.inl ((hkeep.addr r hr).trans hs.addr)
  have hne := lookup_ne_none (hkeep.ready.entry hentry).1 hentry
  exact hkeep.ready.unique (lookup_entry hne) hentry

theorem result_computes (h : Ready m P J M) (hc : Current m J M) (hlive : J.flagsLive = false)
    (hp : p.toNat % 8 = 0) (hp' : (p + 16).toNat % 8 = 0)
    (hf : FieldsKnown m P p fa fb fc rb J M) :
    Computes maps m fb.dyn fb.value (difference m p) {s | rb = some s} J M
      (result p fa fb fc rb) (Resulted m p fa fb fc J) := by
  have hrb : {s | rb = some s} ⊆ P := fun s hs => hf.mem s hs
  unfold result
  split_ifs with hsame
  · simp only [Bool.not_eq_true'] at hsame
    obtain ⟨hdyna, hdynb, heq⟩ := hsame
    have heq' : operandOf m (p + 8) = operandOf m p := by
      rw [operandOf, operandOf, ← hf.value hdynb, ← hf.a.value hdyna, heq]
    refine .bind_in (readC_emits h hc hp' hf.c rfl) hrb fun rc J₁ M₁ hkeep hrc => ?_
    refine (Emits.pure (hkeep.ready.mono hrb) ?_).computes
    exact {
      value := known_const (by rw [difference, heq', sub_self])
      unchanged := nofun
      taken := by
        rintro _ ⟨⟩
        rw [heq', BitVec.sle_eq_decide, decide_eq_true le_rfl]
      decides := nofun
      held := fun _ => Or.inl hkeep.ready.toSound
      isSome := hrc.2.1
      pinned := hrc.1.pinned
      creg := fun r hr _ => hrc.1.reg r hr
      spoils := fun r hs => absurd ⟨hdyna, heq.trans hs.target.2⟩ hs.other }
  · simp only [Bool.not_eq_true'] at hsame
    -- the operands, and what is in use after each of them
    refine .bind_in (operandA_emits h hc hlive hp hf.a hf.notFor) hrb
      fun va J₁ M₁ hkeep₁ hva => ?_
    have hlive₁ := hkeep₁.live.trans hlive
    have hrb₁ := hkeep₁.holds hf.target hf.mem
    have hnone : rb = none → fb.value = read m (p + 8) := fun heq => hf.value <| by
      rw [← hf.isSome, heq]
      rfl
    refine .bind_in (operandB_emits (hkeep₁.ready.keeping hva) (hkeep₁.current hc) hlive₁ hrb₁
      hnone) (hrb.trans subset_keeping) fun vb J₂ M₂ hkeep₂ hvb => ?_
    have hva₂ := hkeep₂.known_keeping hva
    have hkeep₁₂ := hkeep₁.trans (hkeep₂.mono subset_keeping)
    have hready₂ := hkeep₂.ready.keeping hvb.1
    have hsub₂ : P ⊆ keeping (keeping P va) vb := subset_keeping.trans subset_keeping
    refine .bind_in (readC_emits hready₂ (hkeep₁₂.current hc) hp' (hkeep₁₂.fieldKnown hf.c hf.uses)
      rfl) (hrb.trans hsub₂) fun rc J₃ M₃ hkeep₃ hrc => ?_
    have hva₃ := hkeep₃.known hva₂ fun s hs => subset_keeping (Or.inr hs)
    have hvb₃ := hkeep₃.known_keeping hvb.1
    have hkeep := hkeep₁₂.trans (hkeep₃.mono hsub₂)
    have hlive₃ := hkeep.live.trans hlive
    -- a dynamic C stays in its register unless that takes the result
    let Q : Set Reg :=
      {s | rb = some s ∨ rc = some s ∧ ¬ MayOverwrite J₃ fb.dyn fb.value vb s}
    have hready : Ready m Q J₃ M₃ := by
      refine ⟨hkeep.ready.toSound, fun s hs => ?_⟩
      rcases hs with hs | hs
      · exact hkeep.ready.pinned s (hf.mem s hs)
      · exact hrc.1.pinned s hs.1
    have hQ : ∀ r ∈ Q, ¬ MayOverwrite J₃ fb.dyn fb.value vb r := by
      intro r hr hmay
      rcases hr with hr | hr
      · obtain ⟨-, t, ht, hfresh⟩ := hvb.2.2 r hr
        obtain rfl := CVal.reg.inj (ht.symm.trans hmay.1)
        exact hfresh.notMem (Set.mem_insert _ _)
      · exact hr.2 hmay
    have hiff : ∀ r, rc = some r →
        (MayOverwrite J₃ fb.dyn fb.value vb r ↔ Spoils J (p + 16) fa fb fc r) := by
      intro r hr
      refine mayOverwrite_iff_spoils hkeep hf (by rw [← hrc.2.1, hr]; rfl) hsame ?_ fun hs => ?_
      · exact (hrc.2.2 r hr).imp_right fun hr => ⟨hr.1, fun hu => hr.2.notMem (Or.inr hu)⟩
      · have hnone : rb = none := by
          rw [← Option.not_isSome_iff_eq_none, hf.isSome, hs.target.1]
          nofun
        have hb : read m (p + 8) = p + 16 := (hf.value hs.target.1).symm.trans hs.target.2
        have hlookup := hs.lookup hf hkeep₁
        have haligned : read m (p + 8) &&& 7 = 0 := by
          apply BitVec.eq_of_toNat_eq
          rw [toNat_and_seven, hb, hp']
          rfl
        rw [hvb.2.1 hnone haligned (by rw [hb, hlookup]; nofun), hb, hlookup]
    have hrcs : ∀ r, Spoils J (p + 16) fa fb fc r → rc = some r := by
      intro r hs
      obtain ⟨s, hs'⟩ := Option.isSome_iff_exists.mp (hrc.2.1.trans hs.dyn)
      rcases hrc.2.2 s hs' with hcreg | ⟨hnone, -⟩
      · rw [hs', CVal.reg.inj (hcreg.symm.trans hs.creg)]
      · exact absurd hs.creg (hnone r)
    have hassoc := bind_assoc (flushBefore fb.value (!fb.dyn ∧ cacheable fb.value) va vb)
      (fun _ => compute fb.dyn fb.value (fc.dyn ∨ fc.value ≠ p + 24) va vb)
      (fun res => pure (res, rc))
    rw [← hassoc]
    refine ((operation_computes hready hva₃ hvb₃ hlive₃ hQ).then_pure
      fun res J₄ M₄ hcomp hres => ?_).mono_set fun s hs => Or.inl hs
    obtain ⟨hok, hyields, hmay⟩ := hres
    exact {
      value := hok.value
      unchanged := fun hu => by
        obtain ⟨rfl, hconst⟩ := hok.unchanged hu
        exact ⟨hva.denotes.symm, hconst⟩
      taken := hok.taken
      decides := fun hnone hbranch => hok.decides hnone (decide_eq_true hbranch)
      held := fun hu => Or.inr ((hyields hu).imp_right And.right)
      isSome := hrc.2.1
      pinned := fun r hr => by
        by_cases hs : MayOverwrite J₃ fb.dyn fb.value vb r
        · have hvalue := hmay (decide_eq_true (Or.inl ((hiff r hr).mp hs).dyn)) r hs
          exact hok.value.pinned r (Or.inl hvalue)
        · exact hcomp.pinned r (Or.inr ⟨hr, hs⟩)
      creg := fun r hr hs => by
        rw [hcomp.reg r (Or.inr ⟨hr, (hiff r hr).not.mpr hs⟩)]
        exact hrc.1.reg r hr
      spoils := fun r hs => by
        have hr := hrcs r hs
        exact ⟨hr, hmay (decide_eq_true (Or.inl hs.dyn)) r ((hiff r hr).mpr hs)⟩ }

end Translator
end SubleqEmu
