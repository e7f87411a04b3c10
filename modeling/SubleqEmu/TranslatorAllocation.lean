import SubleqEmu.TranslatorPressure

/-!
# Registers for a whole instruction

The stages of `translate_insn` find the registers counted for them, and leave the cache as
the next instruction needs it.
-/

namespace SubleqEmu
namespace Translator

open ByteMemory Subleq Emitter Machine

variable {src : Source} {J J' J'' J₀ : Cache} {a b p x y : Word} {r s t : Reg} {v w va vb : CVal}
  {f fa fb fc : Field} {n i k : ℕ} {dynb branch : Bool} {res : Result} {rb rc : Option Reg}

/-! ## Operands -/

theorem loadThrough_returns (h : Room J (n + 1)) :
    Returns (loadThrough s) J fun v J' => Leaving J n J' ∧
      ∃ r, v = .reg r ∧ r ∈ J'.pins ∧ Free J' r := by
  apply Returns.bind (flushPending_returns h)
  rintro _ J₁ ⟨hleave₁, -⟩
  apply Returns.bind (scratch_returns hleave₁.room)
  rintro r J₂ ⟨hleave₂, hr⟩
  apply Returns.bind (loadMem_returns r (.reg s) 0 J₂)
  rintro _ _ rfl
  exact .pure ⟨hleave₁.trans hleave₂, r, rfl, hr.pinned, hr.free⟩

/-- A, past what was pinned with its field. -/
def restA (J : Cache) (fa : Field) : ℕ :=
  if fa.dyn then 1 + fieldRest fa else staticTakes J fa.value

/-- The register of A's value, where it is in none yet. -/
def regA (J : Cache) (fa : Field) : ℕ :=
  if fa.dyn then 0 else staticReg J fa.value

theorem operandA_returns (h : Room J (n + restA J₀ fa)) (hf : Found src J₀ p fa J) :
    Returns (operandA p fa) J fun v J' => Leaving J n J' ∧ Pinned v J' ∧ v ≠ .none ∧
      regTakes v ≤ regA J₀ fa := by
  unfold restA at h
  unfold regA operandA
  cases hdyn : fa.dyn with
  | false =>
      rw [hdyn, if_neg Bool.false_ne_true] at h
      have htakes := @staticTakes_fades J₀ J fa.value hf.fades
      have hreg := @staticReg_fades J₀ J fa.value hf.fades
      apply (getStatic_returns (n := n) (h.mono (by omega))).imp
      rintro v J' ⟨hleave, hpin, hne, hle, -⟩
      exact ⟨hleave, hpin, hne, hle.trans hreg⟩
  | true =>
      rw [hdyn, if_pos rfl, ← Nat.add_assoc] at h
      apply Returns.bind (fieldReg_returns h hdyn hf)
      rintro ra J₁ ⟨hleave₁, -⟩
      apply (loadThrough_returns hleave₁.room).imp
      rintro _ J₂ ⟨hleave₂, r, rfl, hin, -⟩
      exact ⟨hleave₁.trans hleave₂, pinned_reg hin, by simp, Nat.zero_le _⟩

/-- B, past its register where it is dynamic. -/
def restB (J : Cache) (fb : Field) : ℕ := if fb.dyn then 1 else staticTakes J fb.value

/-- The register of the result, where that is not B's. -/
def regB (J : Cache) (fb : Field) : ℕ := if fb.dyn then 1 else staticDest J fb.value

/-- B as a constant is one that is cached or put together from two. -/
def ConstB (J : Cache) (fb : Field) : Prop :=
  fb.dyn = false ∧ (cacheable fb.value = true ∨ spansCacheable fb.value ∧ constPair J fb.value)

/-- A value's own register takes the result, if that may be, or another is left for it. -/
def Place (ok : Prop) (J : Cache) (n : ℕ) (v : CVal) : Prop :=
  ok ∧ (∃ r, v = .reg r ∧ Free J r) ∨ Room J (n + 1)

theorem Place.imp {ok ok' : Prop} (h : Place ok J n v) (hok : ok → ok') : Place ok' J n v :=
  h.imp_left fun hfree => ⟨hok hfree.1, hfree.2⟩

theorem Place.mono {ok : Prop} (h : Place ok J n v) (hle : k ≤ n) : Place ok J k v :=
  h.imp_right fun hroom => hroom.mono (by omega)

theorem Place.room {ok : Prop} (h : Place ok J n v) (hv : ∀ r, v ≠ .reg r) : Room J (n + 1) := by
  rcases h with ⟨-, r, hr, -⟩ | hroom
  · exact absurd hr (hv r)
  · exact hroom

/-- The place of the result is kept while other registers are taken. -/
theorem Place.keep {α : Type} {g : T α} {ok : Prop} {Q : Cache → Prop}
    (hplace : Place ok J (n + k) v) (hpin : Pinned v J) (h : Room J (n + k))
    (hg : ∀ n, Room J (n + k) → Returns g J fun _ J' => Leaving J n J' ∧ Q J') :
    Returns g J fun _ J' => Leaving J n J' ∧ Q J' ∧ Place ok J' n v := by
  rcases hplace with ⟨hok, r, rfl, hfree⟩ | hroom
  · apply (hg n h).imp
    rintro _ J' ⟨hleave, hres⟩
    exact ⟨hleave, hres, Or.inl ⟨hok, r, rfl, hleave.free r (hpin r (Or.inl rfl)) hfree⟩⟩
  · apply (hg (n + 1) (hroom.mono (by omega))).imp
    rintro _ J' ⟨hleave, hres⟩
    exact ⟨hleave.mono (by omega), hres, Or.inr hleave.room⟩

/-- B's value, with a place for the result. -/
structure OperandB (J₀ J : Cache) (n : ℕ) (fb : Field) (v : CVal) (J' : Cache) : Prop where
  leaving : Leaving J n J'
  pinned : Pinned v J'
  known : v ≠ .none
  place : Place (fb.dyn = false) J' n v
  const : ∀ c, v = .const c → ConstB J₀ fb

theorem operandB_returns (h : Room J (n + restB J₀ fb + regB J₀ fb)) (hfades : Fades J₀ J)
    (hrb : fb.dyn = false → rb = none) (hrb' : fb.dyn = true → ∃ r, rb = some r) :
    Returns (operandB fb rb) J fun v J' => OperandB J₀ J n fb v J' := by
  unfold restB regB at h
  cases hdyn : fb.dyn with
  | true =>
      obtain ⟨r, rfl⟩ := hrb' hdyn
      rw [hdyn, if_pos rfl] at h
      apply (loadThrough_returns (n := n + 1) h).imp
      rintro _ J' ⟨hleave, s, rfl, hin, -⟩
      exact ⟨hleave.mono (by omega), pinned_reg hin, by simp, Or.inr hleave.room,
        fun c hc => by cases hc⟩
  | false =>
      obtain rfl := hrb hdyn
      rw [hdyn, if_neg Bool.false_ne_true, if_neg Bool.false_ne_true] at h
      have htakes := @staticTakes_fades J₀ J fb.value hfades
      have hpair := @constPair_congr J₀ J fb.value hfades
      apply (getStatic_returns (n := n + staticDest J₀ fb.value) (h.mono (by omega))).imp
      rintro v J' ⟨hleave, hpin, hne, -, hspan, hword⟩
      refine ⟨hleave.mono (by omega), hpin, hne, ?_, fun c hc => ⟨hdyn, ?_⟩⟩
      · unfold staticDest at hleave
        split_ifs at hleave with hdest
        · obtain ⟨hspans, hconst⟩ := hdest
          rcases (hspan hspans).2 (hpair.trans hconst) with hreg | hroom
          · exact Or.inl ⟨hdyn, hreg⟩
          · exact Or.inr (hroom.room.mono (by omega))
        · exact Or.inr hleave.room
      · by_cases hspans : spansCacheable fb.value
        · exact Or.inr ⟨hspans, hpair ▸ (hspan hspans).1.mp ⟨c, hc⟩⟩
        · have hlookup := hword hspans c hc
          exact Or.inl (cacheable_of_lookup (J := J) (by rw [hlookup]; simp))

theorem readC_returns (h : Room J (n + fieldRest fc)) (hpin : Pinned fc.cached J) :
    Returns (readC p fc) J fun _ J' => Leaving J n J' := by
  unfold fieldRest at h
  unfold readC
  split_ifs at h ⊢
  · cases hv : fc.cached with
    | none =>
        rw [hv] at h
        apply Returns.bind (scratch_returns h)
        rintro r J₁ ⟨hleave, -⟩
        apply Returns.bind (loadStatic_returns r (p + 16) J₁)
        rintro _ _ rfl
        exact .pure hleave
    | const c =>
        rw [hv] at h hpin
        exact .bind (toReg_returns (n := n) h hpin (by simp)) fun _ _ ht => .pure ht.1
    | reg s =>
        rw [hv] at h hpin
        exact .bind (toReg_returns (n := n) h hpin (by simp)) fun _ _ ht => .pure ht.1
    | neg s =>
        rw [hv] at h hpin
        exact .bind (toReg_returns (n := n) h hpin (by simp)) fun _ _ ht => .pure ht.1
  · exact .pure (.refl h)

theorem flushBefore_returns {pendable : Bool} (h : Room J n) :
    Returns (flushBefore b pendable va vb) J fun _ J' => Leaving J n J' := by
  apply Returns.get_bind
  apply Returns.onlyIf
  · exact fun _ => (flushPending_returns h).imp fun _ _ hflush => hflush.1
  · exact fun _ => .refl h

/-! ## The subtraction -/

theorem copyReg_returns (h : Room J (n + 1)) (hv : ∀ s, v ≠ .neg s) (hne : v ≠ .none) :
    Returns (copyReg v) J fun t J' => Leaving J n J' ∧ t ∈ J'.pins := by
  apply Returns.bind (scratch_returns h)
  rintro r J₁ ⟨hleave, hr⟩
  cases v with
  | none => exact absurd rfl hne
  | neg s => exact absurd rfl (hv s)
  | const c => exact .emit_bind (.pure ⟨hleave, hr.pinned⟩)
  | reg s => exact .emit_bind (.pure ⟨hleave, hr.pinned⟩)

theorem inPlace_free {ok : Option Word → Bool} (hfree : Free J r) (hok : ok none = true) :
    inPlace J (.reg r) ok = some r := by
  obtain ⟨haddr, halias⟩ := free_iff.mp hfree
  have hnot : J.aliased r = false := by
    by_contra hsome
    obtain ⟨a, m, hk⟩ := aliased_iff.mp (by simpa using hsome)
    exact halias a m hk
  rw [inPlace, if_pos ⟨by simp [hnot], by rw [haddr, hok]⟩]

theorem inPlace_eq {ok : Option Word → Bool} (h : inPlace J v ok = some r) : v = .reg r := by
  unfold inPlace at h
  cases v with
  | reg s =>
      simp only at h
      split_ifs at h
      rw [Option.some.inj h]
  | _ => cases h

theorem resultReg_returns {ok : Option Word → Bool} (h : Room J n) (hpin : Pinned v J)
    (hne : v ≠ .none) (hplace : Place (ok none = true) J n v) :
    Returns (resultReg ok v) J fun t J' => Leaving J n J' ∧ t ∈ J'.pins := by
  apply Returns.get_bind
  cases hin : inPlace J v ok with
  | some r =>
      obtain rfl := inPlace_eq hin
      exact .pure ⟨.refl h, hpin r (Or.inl rfl)⟩
  | none =>
      have hroom : Room J (n + 1) := by
        rcases hplace with ⟨hok, r, rfl, hfree⟩ | hroom
        · rw [inPlace_free hfree hok] at hin
          cases hin
        · exact hroom
      cases v with
      | neg s =>
          apply (toReg_returns (n := n) hroom hpin hne).imp
          exact fun t J' ht => ⟨ht.1, ht.2.1⟩
      | none => exact absurd rfl hne
      | const c => exact copyReg_returns hroom (by simp) hne
      | reg s => exact copyReg_returns hroom (by simp) hne

theorem ownReg_returns (h : Room J (n + 1)) (hpin : Pinned v J) (hne : v ≠ .none) :
    Returns (ownReg v) J fun t J' => Leaving J n J' ∧ t ∈ J'.pins := by
  cases v with
  | none => exact absurd rfl hne
  | reg s => exact copyReg_returns h (by simp) hne
  | const c => exact (toReg_returns (n := n) h hpin hne).imp fun t J' ht => ⟨ht.1, ht.2.1⟩
  | neg s => exact (toReg_returns (n := n) h hpin hne).imp fun t J' ht => ⟨ht.1, ht.2.1⟩

/-- What is computed, in a register or as it was. -/
structure Subtracted (J : Cache) (n : ℕ) (vb : CVal) (res : Result) (J' : Cache) : Prop where
  leaving : Leaving J n J'
  pinned : Pinned res.value J'
  known : res.value ≠ .none
  const : ∀ c, res.value = .const c → res.unchanged = false ∧ ∃ y, vb = .const y
  neg : ∀ r, res.value = .neg r → res.unchanged = false → (∃ y, vb = .const y) ∧ Room J' (n + 1)

theorem pinResult_returns (h : Leaving J n J') (hin : r ∈ J'.pins) :
    Returns (pinResult r) J' fun res J'' => Subtracted J n vb res J'' := by
  refine .modify_bind (.pure ⟨h.trans (Room.pin_pinned h.room hin), ?_, by simp,
    fun c hc => (by cases hc), fun s hs => by cases hs⟩)
  exact pinned_reg (by rw [pins_pin]; exact Finset.mem_insert_self r _)

theorem subtract_returns (h : Room J (n + regTakes va)) (hva : Pinned va J) (hvb : Pinned vb J)
    (hne : va ≠ .none) (hne' : vb ≠ .none)
    (hplace : Place (dynb = false) J (n + regTakes va) vb) :
    Returns (subtract dynb b va vb) J fun res J' => Subtracted J n vb res J' := by
  apply Returns.bind (Q := fun t J' => Leaving J n J' ∧ t ∈ J'.pins)
  · split_ifs with hzero
    · have hroom : Room J (n + 1) := by
        have hroom := hplace.room (by simp [hzero])
        exact hroom.mono (by omega)
      apply Returns.bind (ownReg_returns hroom hva hne)
      exact fun t J₁ ht => .emit_bind (.pure ht)
    · apply Returns.bind (resultReg_returns h hvb hne' (hplace.imp fun _ => by simp))
      rintro rr J₁ ⟨hleave₁, hin⟩
      apply Returns.bind (toReg_returns hleave₁.room (hva.steady hleave₁.toSteady) hne)
      rintro ra J₂ ⟨hleave₂, -⟩
      exact .emit_bind (.pure ⟨hleave₁.trans hleave₂, hleave₂.pins hin⟩)
  · rintro rr J₁ ⟨hleave, hin⟩
    exact pinResult_returns hleave hin

theorem testOnly_returns (h : Room J n) (hpin : Pinned v J) (hne : v ≠ .none)
    (hconst : ∀ c, v ≠ .const c) {ok : Prop} (hplace : Place ok J n v) :
    Returns (testOnly branch v) J fun _ J' => Leaving J n J' := by
  apply Returns.onlyIf
  · intro _
    have hroom : Room J (n + regTakes v) := by
      cases v with
      | none => exact h
      | reg s => exact h
      | const c => exact absurd rfl (hconst c)
      | neg s => exact hplace.room (by simp)
    apply Returns.bind (toReg_returns hroom hpin hne)
    exact fun t J₁ ht => .emit ht.1
  · exact fun _ => .refl h

theorem addition_returns (h : Room J n) (hvb : Pinned vb J) (hne : vb ≠ .none)
    (hplace : Place (dynb = false) J n vb) :
    Returns (addition dynb b r vb) J fun t J' => Leaving J n J' ∧ t ∈ J'.pins := by
  apply Returns.bind (resultReg_returns h hvb hne (hplace.imp fun hdyn => by simp [hdyn]))
  exact fun t J₁ ht => .emit_bind (.pure ht)

/-- The result as it is, with what was there still there. -/
theorem subtracted_pure (h : Room J n) (hpin : Pinned res.value J) (hne : res.value ≠ .none)
    (hconst : ∀ c, res.value = .const c → res.unchanged = false ∧ ∃ y, vb = .const y)
    (hneg : ∀ r, res.value = .neg r → res.unchanged = false →
      (∃ y, vb = .const y) ∧ Room J (n + 1)) :
    Returns (pure res : T Result) J fun res J' => Subtracted J n vb res J' :=
  .pure ⟨.refl h, hpin, hne, hconst, hneg⟩

theorem compute_returns (h : Room J (n + regTakes va)) (hva : Pinned va J) (hvb : Pinned vb J)
    (hne : va ≠ .none) (hne' : vb ≠ .none)
    (hplace : Place (dynb = false) J (n + regTakes va) vb) :
    Returns (compute dynb b branch va vb) J fun res J' => Subtracted J n vb res J' := by
  have hsub : Returns (subtract dynb b va vb) J fun res J' => Subtracted J n vb res J' :=
    subtract_returns h hva hvb hne hne' hplace
  unfold compute
  cases va with
  | none => exact absurd rfl hne
  | const x =>
      have hunchanged : (∀ c, vb ≠ .const c) → Returns (if x = 0 then do
            testOnly branch vb
            return (⟨vb, none, true⟩ : Result)
          else subtract dynb b (.const x) vb) J fun res J' => Subtracted J n vb res J' := by
        intro hconst
        split_ifs
        · apply Returns.bind (testOnly_returns (n := n) (h.mono (by omega)) hvb hne' hconst
            (hplace.mono (by omega)))
          intro _ J₁ hleave
          exact .pure ⟨hleave, hvb.steady hleave.toSteady, hne',
            fun c hc => absurd hc (hconst c), fun s _ hun => by cases hun⟩
        · exact hsub
      cases vb with
      | none => exact absurd rfl hne'
      | const y =>
          exact subtracted_pure (h.mono (by omega)) pinned_const (by simp)
            (fun _ _ => ⟨rfl, y, rfl⟩)
            fun s hs => by cases hs
      | reg s => exact hunchanged (by simp)
      | neg s => exact hunchanged (by simp)
  | reg r =>
      simp only
      split_ifs with hzero
      · have hone := hplace.room (by simp [hzero.1])
        exact subtracted_pure h (pinned_neg (hva r (Or.inl rfl))) (by simp)
          (fun c hc => by cases hc) fun s _ _ => ⟨⟨0, hzero.1⟩, hone⟩
      · exact hsub
  | neg r =>
      have hplus : Returns (do
          let rr ← addition dynb b r vb
          pinResult rr) J fun res J' => Subtracted J n vb res J' := by
        apply Returns.bind (addition_returns (n := n + 1) h hvb hne' hplace)
        rintro rr J₁ ⟨hleave, hin⟩
        exact pinResult_returns (hleave.mono (by omega)) hin
      have hother : Returns (if vb = .const 0 then pure (⟨.reg r, none, false⟩ : Result)
          else do
            let rr ← addition dynb b r vb
            pinResult rr) J fun res J' => Subtracted J n vb res J' := by
        split_ifs
        · exact subtracted_pure (h.mono (by omega)) (pinned_reg (hva r (Or.inr rfl))) (by simp)
            (fun c hc => by cases hc) fun s hs => by cases hs
        · exact hplus
      simp only
      split_ifs
      · exact hsub
      · cases vb with
        | none => exact absurd rfl hne'
        | neg s => exact hsub
        | const c => exact hother
        | reg s => exact hother

/-! ## Stores -/

theorem targetOperand_returns (h : Room J (n + far a)) :
    Returns (targetOperand flushPending (.static a)) J fun _ J' => Leaving J n J' := by
  rw [targetOperand]
  unfold far at h
  split_ifs at h ⊢ with hfits
  · exact .pure (.refl h)
  · exact .bind (scratch_returns h) fun _ _ ht => .emit_bind (.pure ht.1)

/-- The register for the address of a store. -/
def farTarget : Target → ℕ
  | .static a => far a
  | .dynamic _ => 0

theorem operandOf_returns {target : Target} (h : Room J (n + farTarget target)) :
    Returns (targetOperand flushPending target) J fun _ J' => Leaving J n J' := by
  cases target with
  | static a => exact targetOperand_returns h
  | dynamic base => exact .pure (.refl h)

theorem storeReg_returns {target : Target}
    (h : Room J (n + swap J.useMovbe + farTarget target)) :
    Returns (storeReg r target) J fun _ J' => Leaving J n J' := by
  apply Returns.bind (operandOf_returns h)
  intro op J₁ hleave
  apply Returns.get_bind
  have hroom := hleave.room
  rw [← hleave.movbe] at hroom
  unfold swap at hroom
  split_ifs at hroom ⊢ with hmovbe
  · exact .emit (hleave.mono (by omega))
  · apply Returns.bind (scratch_returns hroom)
    rintro t J₂ ⟨hleave₂, -⟩
    exact .emit_bind (.emit_bind (.emit (hleave.trans hleave₂)))

theorem storeConst_returns {target : Target} {c : Word}
    (h : Room J (n + farTarget target + 1)) :
    Returns (storeConst c target) J fun _ J' => Leaving J n J' := by
  unfold storeConst storeConstWith
  split
  · exact .emit (.refl (h.mono (by omega)))
  · apply Returns.bind (scratch_returns h)
    rintro t J₁ ⟨hleave, -⟩
    apply Returns.emit_bind
    apply Returns.bind (operandOf_returns hleave.room)
    intro op J₂ hleave₂
    exact .emit (hleave.trans hleave₂)

/-- What the store of a value takes where it is not held back. -/
def nowTakes (useMovbe : Bool) (target : Target) : CVal → ℕ
  | .const _ => farTarget target + 1
  | .neg _ => swap useMovbe + farTarget target + 1
  | _ => swap useMovbe + farTarget target

theorem storeNow_const {c : Word} : storeNow b rb (.const c) = (do
    flushPending
    storeConst c (targetOf b rb)
    return .const c) := by
  cases rb <;> rfl

theorem storeNow_eq (hv : ∀ c, v ≠ .const c) : storeNow b rb v = (do
    flushPending
    let r ← toReg v
    storeReg r (targetOf b rb)
    return .reg r) := by
  cases v with
  | const c => exact absurd rfl (hv c)
  | _ => cases rb <;> rfl

theorem storeNow_returns (hpin : Pinned v J) (hne : v ≠ .none)
    (h : Room J (n + nowTakes J.useMovbe (targetOf b rb) v)) :
    Returns (storeNow b rb v) J fun w J' => Leaving J n J' ∧ J'.pend = none ∧ Plain w := by
  have hstore : (∀ c, v ≠ .const c) →
      Room J (n + (swap J.useMovbe + farTarget (targetOf b rb)) + regTakes v) →
      Returns (storeNow b rb v) J fun w J' => Leaving J n J' ∧ J'.pend = none ∧ Plain w := by
    intro hconst hroom
    rw [storeNow_eq hconst]
    apply Returns.bind (flushPending_returns hroom)
    rintro _ J₁ ⟨hleave₁, hpend₁, -⟩
    apply Returns.bind (toReg_returns hleave₁.room (hpin.steady hleave₁.toSteady) hne)
    rintro r J₂ ⟨hleave₂, -⟩
    have hmovbe : J₂.useMovbe = J.useMovbe := hleave₂.movbe.trans hleave₁.movbe
    have hroom₂ := hleave₂.room
    rw [← hmovbe, ← Nat.add_assoc] at hroom₂
    apply Returns.bind (storeReg_returns hroom₂)
    intro _ J₃ hleave₃
    have hleave := hleave₂.trans hleave₃
    exact .pure ⟨hleave₁.trans hleave, hleave.pend_eq_none hpend₁, Or.inr ⟨r, rfl⟩⟩
  cases v with
  | none => exact absurd rfl hne
  | reg s => exact hstore (by simp) h
  | neg s => exact hstore (by simp) h
  | const c =>
      rw [storeNow_const]
      apply Returns.bind (flushPending_returns h)
      rintro _ J₁ ⟨hleave₁, hpend₁, -⟩
      apply Returns.bind (storeConst_returns hleave₁.room)
      intro _ J₂ hleave₂
      exact .pure ⟨hleave₁.trans hleave₂, hleave₂.pend_eq_none hpend₁, Or.inl ⟨c, rfl⟩⟩

/-! ## The cache after a store -/

theorem unique_drop (h : Unique J) : Unique (J.drop a) :=
  h.of_entries fun _ _ hv => (entry_drop.mp hv).1

theorem lookup_drop (h : Unique J) (hb : b ≠ a) : (J.drop a).lookup b = J.lookup b := by
  by_cases hnone : J.lookup b = .none
  · rw [hnone]
    by_contra hfound
    have hv := (entry_drop.mp (lookup_entry hfound)).1
    exact lookup_ne_none (cacheable_of_lookup hfound) hv hnone
  · exact (unique_drop h).lookup_eq (cacheable_of_lookup hnone)
      (entry_drop.mpr ⟨lookup_entry hnone, hb⟩)

theorem lookup_drop_self : (J.drop a).lookup a = .none := by
  by_contra hfound
  exact (entry_drop.mp (lookup_entry hfound)).2 rfl

/-- The word stored to is dropped; a store held back for another word still is. -/
theorem Room.drop (h : Room J n) (ha : J.pend ≠ some a) : Room (J.drop a) n where
  held b hb := by
    have hne : b ≠ a := by
      rintro rfl
      exact ha hb
    rw [lookup_drop h.unique hne]
    exact h.held b hb
  unique := unique_drop h.unique
  card := by
    have hcard := h.card
    have hpins : (J.drop a).pins = J.pins := pins_eq fun _ => drop_pinned
    have howed : owed (J.drop a) = owed J := by
      cases hp : J.pend with
      | none => rw [owed_none hp, owed_none (J := J.drop a) hp]
      | some b =>
          have hne : b ≠ a := by
            rintro rfl
            exact ha hp
          rw [owed_some hp, owed_some (J := J.drop a) hp, lookup_drop h.unique hne]
          rfl
    rw [hpins, howed]
    exact hcard

/-- The cache is as it is to be but for the word at `b`. -/
structure SaneBut (b : Word) (J : Cache) : Prop where
  held : ∀ a, J.pend = some a → a ≠ b → J.lookup a ≠ .none
  unique : Unique J

theorem Sane.but (h : Sane J) (b : Word) : SaneBut b J := ⟨fun a ha _ => h.held a ha, h.unique⟩

theorem SaneBut.drop (h : SaneBut b J) : SaneBut b (J.drop b) where
  held a ha hne := by
    rw [lookup_drop h.unique hne]
    exact h.held a ha hne
  unique := unique_drop h.unique

/-- The word gets its only entry; what is held back for another keeps its own. -/
theorem SaneBut.store (h : SaneBut b J) (hb : cacheable b = true) (hself : Entry J' b v)
    (hold : ∀ a w, Entry J' a w → Entry J a w ∧ a ≠ b ∨ a = b ∧ w = v)
    (hpend : ∀ a, J'.pend = some a → a ≠ b →
      J.pend = some a ∧ ∀ w, Entry J a w → Entry J' a w) :
    Sane J' ∧ J'.lookup b ≠ .none := by
  have hfound := lookup_ne_none hb hself
  refine ⟨⟨fun a ha => ?_, fun a w w' hw hw' => ?_⟩, hfound⟩
  · by_cases hne : a = b
    · rwa [hne]
    · obtain ⟨hp, hkeep⟩ := hpend a ha hne
      have hentry := h.held a hp hne
      exact lookup_ne_none (cacheable_of_lookup hentry) (hkeep _ (lookup_entry hentry))
  · rcases hold a w hw with ⟨hw, hne⟩ | ⟨rfl, rfl⟩
    · rcases hold a w' hw' with ⟨hw', -⟩ | ⟨heq, -⟩
      · exact h.unique a w w' hw hw'
      · exact absurd heq hne
    · rcases hold a w' hw' with ⟨-, hne⟩ | ⟨-, rfl⟩
      · exact absurd rfl hne
      · rfl

theorem SaneBut.putAlias {slot : Fin 16} {neg : Bool} (h : SaneBut b J) (hb : cacheable b = true)
    (hnone : J.lookup b = .none)
    (hslot : ∀ c, J.aliases slot = some c → J.pend ≠ some c.addr) :
    Sane (putAlias slot ⟨b, r, neg⟩ J) ∧ (putAlias slot ⟨b, r, neg⟩ J).lookup b ≠ .none := by
  refine h.store hb entry_putAlias_self (fun a w hw => ?_) fun a ha _ => ⟨ha, fun w hw => ?_⟩
  · apply (entry_putAlias hw).imp_left
    refine fun hold => ⟨hold, ?_⟩
    rintro rfl
    exact lookup_eq_none hnone hb w hold
  · refine entry_putAlias_of hw fun c hc heq => hslot c hc ?_
    rw [heq]
    exact ha

theorem setAlias_returns {neg : Bool} (h : Room J n) (hb : cacheable b = true) :
    Returns (setAlias b r neg) J fun _ J' => Sane J' ∧ J'.lookup b ≠ .none := by
  have hbut := (h.toSane.but b).drop
  have hnone : (J.drop b).lookup b = .none := lookup_drop_self
  apply Returns.modify_bind
  apply Returns.get_bind
  rw [hb]
  simp only [Bool.not_true, Bool.false_eq_true, if_false]
  split
  · next slot hslot =>
      refine .modify (hbut.putAlias hb hnone fun c hc => ?_)
      have hfree := List.find?_some hslot
      rw [hc] at hfree
      cases hfree
  · generalize (Fin.ofNat 16 (J.drop b).aliasNext.toNat : Fin 16) = slot
    generalize hnext : { J.drop b with aliasNext := (J.drop b).aliasNext + 1 } = J₁
    have hsame : SameEntries (J.drop b) J₁ := by
      rw [← hnext]
      exact ⟨fun _ => rfl, rfl, rfl⟩
    have hpend₁ : J₁.pend = (J.drop b).pend := by rw [← hnext]
    have hbut₁ : SaneBut b J₁ := {
      held := fun a ha hne => by
        rw [hsame.lookup]
        exact hbut.held a (hpend₁.symm.trans ha) hne
      unique := hbut.unique.of_entries fun _ _ hv => hsame.entry.mp hv }
    apply Returns.modify_bind
    rw [hnext]
    apply Returns.bind (Q := fun _ J' => SaneBut b J' ∧ J'.lookup b = .none ∧
      ∀ c, J'.aliases slot = some c → J'.pend ≠ some c.addr)
    · apply Returns.onlyIf
      · rintro ⟨-, hflush⟩
        have hp : J.pend ≠ some b := by
          intro hp
          obtain ⟨⟨a, s, neg'⟩, hc, ha⟩ := Option.map_eq_some_iff.mp (hflush.symm.trans hp)
          exact (alias_drop.mp ⟨slot, ha ▸ hc⟩).2 rfl
        have hroom := h.drop hp
        have hleave : Leaving (J.drop b) n J₁ :=
          (Steady.same hsame hbut.unique (pins_eq fun _ => by rw [← hnext]).ge
            (by rw [← hnext])).leaving hroom hpend₁ (fun _ _ => hsame.lookup) (by
              rw [show J₁.pins = (J.drop b).pins from pins_eq fun _ => by rw [← hnext]])
        apply (flushPending_returns hleave.room).imp
        rintro _ J₂ ⟨hleave₂, hpend₂, hunknown⟩
        refine ⟨hleave₂.room.toSane.but b, hunknown b (hsame.lookup.trans hnone), fun c _ hp => ?_⟩
        rw [hpend₂] at hp
        cases hp
      · intro hflush
        refine ⟨hbut₁, hsame.lookup.trans hnone, fun c hc hp => hflush ⟨?_, ?_⟩⟩
        · exact Option.isSome_iff_exists.mpr ⟨_, hpend₁.symm.trans hp⟩
        · rw [hsame.aliases] at hc
          rw [hc, ← hpend₁, hp]
          rfl
    · rintro _ J₂ ⟨hbut₂, hnone₂, hslot⟩
      exact .modify (hbut₂.putAlias hb hnone₂ hslot)

theorem cacheResult_returns (h : Room J n) (hb : cacheable b = true) (hne : v ≠ .none)
    (hconst : ∀ c, v = .const c → ∀ a, J.pend = some a → a = b) :
    Returns (cacheResult b v) J fun _ J' => Sane J' ∧ J'.lookup b ≠ .none := by
  cases v with
  | none => exact absurd rfl hne
  | const c =>
      refine .modify ((h.toSane.but b).store hb (entry_setConst_self hb) (fun a w hw => ?_)
        fun a ha hnot => absurd (hconst c rfl a (setConst_pend.symm.trans ha)) hnot)
      exact (entry_setConst hw).imp_right fun hw => ⟨hw.1, hw.2.1⟩
  | neg r => exact setAlias_returns h hb
  | reg r =>
      apply Returns.get_bind
      split_ifs with haddr
      · refine .modify ((h.toSane.but b).store hb (entry_bindReg_self hb) (fun a w hw => ?_)
          fun a ha hnot => ⟨bindReg_pend.symm.trans ha, fun w hw => entry_bindReg_of hw hnot ?_⟩)
        · exact (entry_bindReg hw).imp (fun hw => ⟨hw.1, hw.2 hb⟩) fun hw => ⟨hw.1, hw.2.1⟩
        · intro ha
          rcases haddr with haddr | haddr
          · rw [haddr] at ha
            cases ha
          · rw [haddr] at ha
            exact absurd (Option.some.inj ha).symm hnot
      · exact setAlias_returns h hb

/-- Another word is held back from now on. -/
theorem Sane.hold (h : Sane J) (hb : J.lookup b ≠ .none) : Sane { J with pend := some b } where
  held a ha := by
    obtain rfl := Option.some.inj ha
    exact hb
  unique := h.unique

theorem Sane.of_pend (hunique : Unique J) (hpend : J.pend = none) : Sane J where
  held a ha := by
    rw [hpend] at ha
    cases ha
  unique := hunique

theorem storeHeldBack_returns (h : Room J n) (hb : cacheable b = true) (hne : res.value ≠ .none)
    (hconst : ∀ c, res.value = .const c → res.unchanged = false) :
    Returns (storeHeldBack b res) J fun _ J' => Sane J' := by
  apply Returns.get_bind
  apply Returns.bind (Q := fun _ J' => Room J' n ∧
    (res.unchanged = false → ∀ a, J'.pend = some a → a = b))
  · apply Returns.onlyIf
    · intro _
      apply (flushPending_returns h).imp
      rintro _ J₁ ⟨hleave, hpend, -⟩
      refine ⟨hleave.room, fun _ a ha => ?_⟩
      rw [hpend] at ha
      cases ha
    · intro hnot
      refine ⟨h, fun hchanged a ha => ?_⟩
      simp only [hchanged, Bool.not_false, true_and, ne_eq, not_not] at hnot
      exact Option.some.inj (ha.symm.trans hnot)
  · rintro _ J₁ ⟨hroom, hpend⟩
    apply Returns.bind (cacheResult_returns hroom hb hne fun c hc => hpend (hconst c hc))
    rintro _ J₂ ⟨hsane, hfound⟩
    exact .onlyIf (fun _ => .modify (hsane.hold hfound)) fun _ => hsane

theorem unique_dropAll : Unique J.dropAll := fun _ _ _ hv => absurd hv entry_dropAll

theorem storeComputed_returns (h : Room J n) (hpin : Pinned res.value J) (hne : res.value ≠ .none)
    (hroom : res.unchanged = false → Room J (nowTakes J.useMovbe (.dynamic r) res.value)) :
    Returns (storeComputed r res) J fun _ J' => Sane J' := by
  apply Returns.onlyIf
  · intro hchanged
    have hroom' : Room J (0 + nowTakes J.useMovbe (targetOf 0 (some r)) res.value) :=
      (hroom (by simpa using hchanged)).mono (by exact Nat.le_of_eq (Nat.zero_add _))
    apply Returns.bind (storeNow_returns hpin hne hroom')
    rintro w J₁ ⟨hleave, hpend, -⟩
    exact .modify (.of_pend unique_dropAll hpend)
  · exact fun _ => h.toSane

theorem storeUncached_returns (h : Room J n) (hpin : Pinned res.value J) (hne : res.value ≠ .none)
    (hroom : res.unchanged = false → Room J (nowTakes J.useMovbe (.static b) res.value)) :
    Returns (storeUncached b res) J fun v J' => Sane J' ∧
      ∀ w, v = some w → Plain w ∧ J'.pend = none := by
  unfold storeUncached
  by_cases hun : res.unchanged = true
  · rw [if_pos hun]
    exact .pure ⟨h.toSane, fun w hw => by cases hw⟩
  · rw [if_neg hun]
    have hroom' : Room J (0 + nowTakes J.useMovbe (targetOf b none) res.value) :=
      (hroom (by simpa using hun)).mono (by exact Nat.le_of_eq (Nat.zero_add _))
    apply Returns.bind (storeNow_returns hpin hne hroom')
    rintro w J₁ ⟨hleave, hpend, hplain⟩
    split_ifs
    · refine .pure ⟨hleave.room.toSane, fun x hx => ?_⟩
      cases hx
      exact ⟨hplain, hpend⟩
    · exact .modify_bind (.pure ⟨.of_pend (unique_drop (unique_drop hleave.room.unique)) hpend,
        fun x hx => by cases hx⟩)

end Translator
end SubleqEmu
