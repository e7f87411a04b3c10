import SubleqEmu.TranslatorUnaligned

/-!
# The registers of an instruction

What an instruction takes of the eleven registers, counted from how the cache knows its
operands before it.  Where that is no more than there are, `scratch` finds one each time.
-/

namespace SubleqEmu
namespace Translator

open ByteMemory Subleq Emitter Machine

variable {src : Source} {J J' J'' J₀ : Cache} {a b p : Word} {r s t : Reg} {v w : CVal}
  {f fa fb fc : Field} {n i k : ℕ} {dynb branch unchanged : Bool} {res : Result}

/-! ## The count -/

/-- A dynamic field, in a register. -/
def fieldTakes (f : Field) : ℕ :=
  if f.dyn then
    match f.cached with
    | .neg _ => 2
    | _ => 1
  else 0

/-- Of these, what is not pinned with the field. -/
def fieldRest (f : Field) : ℕ :=
  if f.dyn then
    match f.cached with
    | .reg _ => 0
    | _ => 1
  else 0

/-- A, and a register for it where it is subtracted from B. -/
def operandTakesA (J : Cache) (fa : Field) : ℕ :=
  if fa.dyn then fieldTakes fa + 1 else staticTakes J fa.value + staticReg J fa.value

/-- B, and a register for the result where it is not in B's. -/
def operandTakesB (J : Cache) (fb : Field) : ℕ :=
  if fb.dyn then fieldTakes fb + 2 else staticTakes J fb.value + staticDest J fb.value

/-- `A` is `B`. -/
def sameOperand (fa fb : Field) : Prop := fa.dyn = false ∧ fb.dyn = false ∧ fa.value = fb.value

instance (fa fb : Field) : Decidable (sameOperand fa fb) := inferInstanceAs (Decidable (_ ∧ _ ∧ _))

/-- The store, where it is not held back. -/
def storeTakes (J : Cache) (fa fb : Field) : ℕ :=
  if fb.dyn then swap J.useMovbe
  else if cacheable fb.value then 0
  else far fb.value +
    if sameOperand fa fb ∨ spansCacheable fb.value ∧ constPair J fb.value then 1
    else swap J.useMovbe

/-- The registers of the instruction at `p`, with those of the store held back. -/
def insnTakes (src : Source) (J : Cache) (p : Word) : ℕ :=
  let fa := fieldOf src J p
  let fb := fieldOf src J (p + 8)
  let fc := fieldOf src J (p + 16)
  (if sameOperand fa fb then 0 else operandTakesA J fa + operandTakesB J fb) + fieldTakes fc +
    storeTakes J fa fb + owed J

/-! ## Words that are known the same or less -/

theorem isConst_congr (h : Fades J J') :
    CVal.isConst (J'.lookup a) = CVal.isConst (J.lookup a) := by
  rw [Bool.eq_iff_iff, isConst_iff, isConst_iff]
  exact exists_congr fun c => h.const a c

theorem constPair_congr (h : Fades J J') : constPair J' a = constPair J a := by
  rw [constPair, constPair, isConst_congr h, isConst_congr h]

theorem valueTakes_congr (h : CVal.isConst v = CVal.isConst w) : valueTakes v = valueTakes w := by
  cases v <;> cases w <;> simp_all [CVal.isConst, valueTakes]

theorem shiftTakes_fades (h : Fades J J') : shiftTakes (J'.lookup a) ≤ shiftTakes (J.lookup a) := by
  have hconst := @isConst_congr J J' a h
  have hneg := h.neg a
  cases hv : J'.lookup a with
  | const c => exact Nat.zero_le _
  | neg r => rw [hneg r hv]
  | none =>
      rw [hv] at hconst
      cases hw : J.lookup a <;> simp_all [CVal.isConst, shiftTakes]
  | reg r =>
      rw [hv] at hconst
      cases hw : J.lookup a <;> simp_all [CVal.isConst, shiftTakes]

theorem regTakes_fades (h : Fades J J') : regTakes (J'.lookup a) ≤ regTakes (J.lookup a) := by
  cases hv : J'.lookup a with
  | const c => rw [(h.const a c).mp hv]
  | neg r => rw [h.neg a r hv]
  | none => exact Nat.zero_le _
  | reg r => exact Nat.zero_le _

theorem pairTakes_fades (h : Fades J J') :
    pairTakes (J'.lookup a) (J'.lookup b) ≤ pairTakes (J.lookup a) (J.lookup b) := by
  have hmixed : mixed (J'.lookup a) (J'.lookup b) = mixed (J.lookup a) (J.lookup b) := by
    apply mixed_congr
    · exact exists_congr fun c => h.const a c
    · exact exists_congr fun c => h.const b c
  have ha := @shiftTakes_fades J J' a h
  have hb := @shiftTakes_fades J J' b h
  rw [pairTakes, pairTakes, hmixed, valueTakes_congr (isConst_congr h),
    valueTakes_congr (isConst_congr h)]
  omega

theorem staticTakes_fades (h : Fades J J') : staticTakes J' a ≤ staticTakes J a := by
  unfold staticTakes
  split_ifs
  · exact pairTakes_fades h
  · exact Nat.le_of_eq (valueTakes_congr (isConst_congr h))

theorem staticReg_fades (h : Fades J J') : staticReg J' a ≤ staticReg J a := by
  unfold staticReg
  rw [constPair_congr h]
  split_ifs
  · exact Nat.le_refl _
  · exact Nat.le_refl _
  · exact regTakes_fades h

/-! ## Fields -/

theorem fieldOf_cached (h : (fieldOf src J p).cached ≠ .none) :
    (fieldOf src J p).cached = J.lookup p ∧ ∀ c, J.lookup p ≠ .const c := by
  unfold fieldOf at h ⊢
  split_ifs at h ⊢
  · cases hv : J.lookup p <;> simp_all
  · simp at h

theorem fieldOf_missing (hdyn : (fieldOf src J p).dyn = true)
    (h : (fieldOf src J p).cached = .none) : J.lookup p = .none := by
  unfold fieldOf at h hdyn
  split_ifs at h hdyn
  cases hv : J.lookup p <;> simp_all

theorem fieldOf_congr (h : J'.lookup p = J.lookup p) : fieldOf src J' p = fieldOf src J p := by
  rw [fieldOf, fieldOf, h]

theorem field_returns (h : Room J (n + fieldTakes (fieldOf src J p))) :
    Returns (field src p) J fun f J' => f = fieldOf src J p ∧ Leaving J (n + fieldRest f) J' ∧
      Pinned f.cached J' ∧ ∀ b, J'.lookup b = J.lookup b := by
  by_cases hdyn : src.dynamic p = true
  · obtain ⟨J₁, hleave₁, -, hlookup₁, heq⟩ := h.cacheFind p
    rw [field, if_pos hdyn]
    apply Returns.eq_bind heq
    have hpin : ∀ v m, valueTakes v = 1 → Leaving J (m + 1) J₁ → Returns (do
        pinVal v
        return (⟨true, 0, v⟩ : Field)) J₁ fun f J' => f = ⟨true, 0, v⟩ ∧ Leaving J m J' ∧
          Pinned v J' ∧ ∀ b, J'.lookup b = J.lookup b := by
      intro v m hone hleave
      apply Returns.bind (pinVal_returns (n := m) v (hone ▸ hleave.room))
      rintro _ J₂ ⟨hleave₂, hpin, hlookup₂⟩
      exact .pure ⟨rfl, (hleave.trans hleave₂).mono (by omega), hpin,
        fun b => (hlookup₂ b).trans (hlookup₁ b)⟩
    cases hv : J.lookup p with
    | const c =>
        have hof : fieldOf src J p = ⟨false, c, .none⟩ := by simp [fieldOf, hdyn, hv]
        rw [hof] at hleave₁ ⊢
        exact .pure ⟨rfl, hleave₁, pinned_none, hlookup₁⟩
    | none =>
        have hof : fieldOf src J p = ⟨true, 0, .none⟩ := by simp [fieldOf, hdyn, hv]
        rw [hof] at hleave₁ ⊢
        exact .pure ⟨rfl, hleave₁, pinned_none, hlookup₁⟩
    | reg r =>
        have hof : fieldOf src J p = ⟨true, 0, .reg r⟩ := by simp [fieldOf, hdyn, hv]
        rw [hof] at hleave₁ ⊢
        apply (hpin (.reg r) n rfl hleave₁).imp
        rintro f J₂ ⟨rfl, hrest⟩
        exact ⟨rfl, hrest⟩
    | neg r =>
        have hof : fieldOf src J p = ⟨true, 0, .neg r⟩ := by simp [fieldOf, hdyn, hv]
        rw [hof] at hleave₁ ⊢
        apply (hpin (.neg r) (n + 1) rfl hleave₁).imp
        rintro f J₂ ⟨rfl, hrest⟩
        exact ⟨rfl, hrest⟩
  · have hof : fieldOf src J p = ⟨false, src.raw p, .none⟩ := by simp [fieldOf, hdyn]
    rw [hof] at h ⊢
    rw [field, if_neg hdyn]
    exact .pure ⟨rfl, .refl h, pinned_none, fun _ => rfl⟩

/-- A field of the instruction as it was found, in a later cache. -/
structure Found (src : Source) (J₀ : Cache) (p : Word) (f : Field) (J : Cache) : Prop where
  eq : f = fieldOf src J₀ p
  pinned : Pinned f.cached J
  fades : Fades J₀ J

theorem fieldReg_returns (h : Room J (n + fieldRest f)) (hdyn : f.dyn = true)
    (hf : Found src J₀ p f J) :
    Returns (fieldReg p f) J fun r J' => Leaving J n J' ∧ r ∈ J'.pins := by
  have hcached : f.cached ≠ .none → f.cached = J₀.lookup p ∧ ∀ c, J₀.lookup p ≠ .const c := by
    rw [hf.eq]
    exact fieldOf_cached
  unfold fieldRest at h
  rw [if_pos hdyn] at h
  have hpinned := hf.pinned
  have hmissing : f.cached = .none → ∀ c, J.lookup p ≠ .const c := by
    intro hnone c hc
    have hlookup := fieldOf_missing (hf.eq ▸ hdyn) (hf.eq ▸ hnone)
    rw [(hf.fades.const p c).mp hc] at hlookup
    cases hlookup
  unfold fieldReg
  cases hv : f.cached with
  | none =>
      rw [hv] at h
      apply Returns.bind (scratch_returns h)
      rintro r J₁ ⟨hleave, hr⟩
      apply Returns.bind (loadStatic_returns r p J₁)
      rintro _ _ rfl
      have hbind := hleave.bindReg hr fun c hc =>
        hmissing hv c ((hleave.fades.const p c).mp hc)
      exact .modify_bind (.pure ⟨hbind, (pins_eq fun _ => bindReg_pinned).ge hr.pinned⟩)
  | const c =>
      obtain ⟨heq, hnot⟩ := hcached (by rw [hv]; simp)
      exact absurd (heq.symm.trans hv) (hnot c)
  | reg s =>
      rw [hv] at h hpinned
      exact (toReg_returns h hpinned (by simp)).imp fun r J' ⟨hleave, hin, _⟩ => ⟨hleave, hin⟩
  | neg s =>
      rw [hv] at h hpinned
      exact (toReg_returns h hpinned (by simp)).imp fun r J' ⟨hleave, hin, _⟩ => ⟨hleave, hin⟩

/-! ## Checks -/

theorem snapPending_returns (h : Room J n) : Returns snapPending J fun _ J' => Leaving J n J' := by
  apply Returns.get_bind
  cases J.pend with
  | none => exact .pure (.refl h)
  | some a =>
      obtain ⟨J₁, hleave, -, -, heq⟩ := h.cacheFind a
      exact .eq_bind heq (.pure hleave)

theorem checkWordsOf_returns (i : ℕ) (ws : List Word) (h : Room J n) :
    Returns (checkWordsOf i ws) J fun _ J' => Leaving J n J' := by
  induction ws generalizing J with
  | nil => exact .pure (.refl h)
  | cons w rest ih =>
      apply Returns.emit_bind
      apply Returns.bind (snapPending_returns h)
      intro pend J₁ hleave
      apply Returns.emit_bind
      exact (ih hleave.room).imp fun _ J₂ hleave' => hleave.trans hleave'

theorem checkComputed_returns (i : ℕ) (rb : Reg) (h : Room J (n + 2)) :
    Returns (checkComputed i rb) J fun _ J' => Leaving J (n + 2) J' := by
  apply Returns.bind (scratch_returns (n := n + 1) h)
  rintro t₁ J₁ ⟨hleave₁, ht₁⟩
  apply Returns.bind (scratch_returns (n := n) hleave₁.room)
  rintro t₂ J₂ ⟨hleave₂, ht₂⟩
  apply Returns.emit_bind
  apply Returns.emit_bind
  apply Returns.emit_bind
  apply Returns.bind (snapPending_returns hleave₂.room)
  intro pend J₃ hleave₃
  apply Returns.emit_bind
  apply Returns.modify_bind
  apply Returns.modify
  have hne : t₁ ≠ t₂ := fun heq => ht₂.out (heq ▸ ht₁.pinned)
  have hleave := (hleave₁.trans hleave₂).trans hleave₃
  have hin₁ := hleave₃.pins (hleave₂.pins ht₁.pinned)
  have hin₂ := hleave₃.pins ht₂.pinned
  have hunpin₁ := hleave.unpin ht₁.out hin₁
  refine hunpin₁.unpin (fun hin => ht₂.out (hleave₁.pins hin)) ?_
  rw [pins_unpin]
  exact Finset.mem_erase.mpr ⟨hne.symm, hin₂⟩

theorem checkTarget_returns (src : Source) (i : ℕ) (h : Room J (n + fieldRest fb))
    (hn : fb.dyn = true → 2 ≤ n) (hf : Found src J₀ (p + 8) fb J) :
    Returns (checkTarget src i p fb) J fun rb J' => Leaving J n J' ∧
      (fb.dyn = false → rb = none) ∧ (fb.dyn = true → ∃ r, rb = some r ∧ r ∈ J'.pins) := by
  rw [checkTarget]
  cases hdyn : fb.dyn with
  | false =>
      apply Returns.bind (checkWordsOf_returns i _ h)
      exact fun _ J₁ hleave => .pure ⟨hleave.mono (by omega), fun _ => rfl, fun hd => (by cases hd)⟩
  | true =>
      apply Returns.bind (fieldReg_returns h hdyn hf)
      rintro rb J₁ ⟨hleave, hin⟩
      obtain ⟨m, rfl⟩ : ∃ m, n = m + 2 := ⟨n - 2, by have := hn hdyn; omega⟩
      apply Returns.bind (checkComputed_returns i rb hleave.room)
      exact fun _ J₂ hleave' => .pure ⟨hleave.trans hleave', fun hd => (by cases hd),
        fun _ => ⟨rb, rfl, hleave'.pins hin⟩⟩

end Translator
end SubleqEmu
