import SubleqEmu.TranslatorPins

/-!
# Registers that are taken

What each generator takes of the registers, by how a word is known.
-/

namespace SubleqEmu
namespace Translator

open ByteMemory Subleq Emitter Machine

variable {J J' J'' : Cache} {a b : Word} {r s t : Reg} {v w part : CVal} {mask : Word} {n k : ℕ}
  {left : Bool}

/-! ## Registers taken and let go -/

def Pinned (v : CVal) (J : Cache) : Prop := ∀ s, Uses v s → s ∈ J.pins

theorem Pinned.steady (h : Pinned v J) (hsteady : Steady J J') : Pinned v J' :=
  fun s hs => hsteady.pins (h s hs)

theorem pinned_const {c : Word} : Pinned (.const c) J := fun _ hs => absurd hs not_uses_const

theorem pinned_none : Pinned .none J := fun _ hs => absurd hs not_uses_none

theorem pinned_reg (h : r ∈ J.pins) : Pinned (.reg r) J := fun _ hs => uses_reg.mp hs ▸ h

theorem pinned_neg (h : r ∈ J.pins) : Pinned (.neg r) J := fun _ hs => uses_neg.mp hs ▸ h

theorem Leaving.unpin (h : Leaving J n J') (hout : t ∉ J.pins) (hin : t ∈ J'.pins) :
    Leaving J (n + 1) (J'.unpin t) := by
  have hpos := Finset.card_pos.mpr ⟨t, hin⟩
  have hpins : (J'.unpin t).pins = J'.pins.erase t := pins_unpin
  have hsub : J.pins ⊆ (J'.unpin t).pins := fun s hs => by
    rw [hpins]
    refine Finset.mem_erase.mpr ⟨?_, h.pins hs⟩
    rintro rfl
    exact hout hs
  have hsteady := h.toSteady.then_same sameEntries_unpin hsub rfl
  refine ⟨hsteady, ⟨⟨fun a ha => ?_, hsteady.unique⟩, ?_⟩, h.pend⟩
  · rw [sameEntries_unpin.lookup]
    exact h.room.held a ha
  · have hcard := h.room.card
    have howed : owed (J'.unpin t) = owed J' := by
      unfold owed
      have hpend : (J'.unpin t).pend = J'.pend := rfl
      have hmovbe : (J'.unpin t).useMovbe = J'.useMovbe := rfl
      rw [hpend, hmovbe]
      cases J'.pend with
      | none => rfl
      | some a => simp only [sameEntries_unpin.lookup]
    rw [howed, hpins, Finset.card_erase_of_mem hin]
    omega

theorem Room.pin (h : Room J (n + 1)) : Leaving J n (J.pin r) :=
  (steady_pin h.unique r).leaving h rfl (fun _ _ => sameEntries_pin.lookup) (by
    have hinsert := Finset.card_insert_le r J.pins
    rw [pins_pin]
    omega)

theorem Room.pin_pinned (h : Room J n) (hin : r ∈ J.pins) : Leaving J n (J.pin r) :=
  (steady_pin h.unique r).leaving h rfl (fun _ _ => sameEntries_pin.lookup)
    (by rw [pins_pin, Finset.insert_eq_of_mem hin])

/-- The register of `to_reg` for what is in none as it is. -/
def regTakes : CVal → ℕ
  | .const _ => 1
  | .neg _ => 1
  | _ => 0

theorem toReg_returns (h : Room J (n + regTakes v)) (hv : Pinned v J) (hne : v ≠ .none) :
    Returns (toReg v) J fun t J' => Leaving J n J' ∧ t ∈ J'.pins ∧
      (v = .reg t ∨ (∀ s, v ≠ .reg s) ∧ t ∉ J.pins ∧ Free J' t) := by
  cases v with
  | reg s => exact .pure ⟨.refl h, hv s (Or.inl rfl), Or.inl rfl⟩
  | neg s =>
      have hpin := Room.pin_pinned h (hv s (Or.inr rfl))
      apply Returns.modify_bind
      apply Returns.bind (scratch_returns hpin.room)
      rintro t J₁ ⟨hleave, ht⟩
      apply Returns.emit_bind
      apply Returns.bind (negate_returns t J₁)
      rintro _ _ rfl
      exact .pure ⟨hpin.trans hleave, ht.pinned,
        Or.inr ⟨by simp, fun hin => ht.out (hpin.pins hin), ht.free⟩⟩
  | const c =>
      apply Returns.bind (scratch_returns h)
      rintro t J₁ ⟨hleave, ht⟩
      exact .emit_bind (.pure ⟨hleave, ht.pinned, Or.inr ⟨by simp, ht.out, ht.free⟩⟩)
  | none => exact absurd rfl hne

theorem andImm64_returns (h : Room J (n + 1)) :
    Returns (andImm64 r mask) J fun _ J' => Leaving J (n + 1) J' := by
  rw [andImm64]
  split_ifs
  · exact .emit (.refl h)
  · exact .emit (.refl h)
  · apply Returns.bind (scratch_returns h)
    rintro t J₁ ⟨hleave, ht⟩
    exact .emit_bind (.emit_bind (.modify (hleave.unpin ht.out ht.pinned)))

/-- A register is or'ed as it is. -/
theorem orReg_returns (r s : Reg) (J : Cache) :
    Returns (orVal r (.reg s)) J fun _ J' => J' = J := by
  rw [orVal, if_neg (by simp)]
  apply Returns.bind (Q := fun _ J' => J' = J) (.pure rfl)
  rintro t _ rfl
  exact .emit_bind (.pure rfl)

theorem orVal_returns (h : Room J (n + 1)) (hv : Pinned v J) (hne : v ≠ .none) :
    Returns (orVal r v) J fun _ J' => Leaving J (n + 1) J' := by
  have hnew : (∀ s, v ≠ .reg s) → Returns (do
      let t ← toReg v
      emit (.or r t)
      modifyState (·.unpin t)) J fun _ J' => Leaving J (n + 1) J' := by
    intro hreg
    have hle : regTakes v ≤ 1 := by
      cases v <;> simp [regTakes]
    apply Returns.bind (toReg_returns (n := n) (h.mono (by omega)) hv hne)
    rintro t J₁ ⟨hleave, hin, heq | ⟨-, hout, -⟩⟩
    · exact absurd heq (hreg t)
    · exact .emit_bind (.modify (hleave.unpin hout hin))
  by_cases hzero : v = .const 0
  · rw [orVal, if_pos hzero]
    exact .pure (.refl h)
  · cases v with
    | reg s =>
        apply (orReg_returns r s J).imp
        rintro _ _ rfl
        exact .refl h
    | _ =>
        rw [orVal, if_neg hzero]
        exact hnew (by simp)

theorem loadMem_returns (r : Reg) (base : Base) (disp : BitVec 32) (J : Cache) :
    Returns (loadMem r base disp) J fun _ J' => J' = J := by
  apply Returns.get_bind
  split_ifs
  · exact .emit rfl
  · exact .emit_bind (.emit rfl)

theorem loadStatic_returns (r : Reg) (a : Word) (J : Cache) :
    Returns (loadStatic r a) J fun _ J' => J' = J := by
  rw [loadStatic]
  split_ifs
  · exact loadMem_returns r _ _ J
  · exact .emit_bind (loadMem_returns r _ _ J)

/-- The registers for a value shifted: its own, and one more for a negation. -/
def shiftTakes : CVal → ℕ
  | .const _ => 0
  | .neg _ => 2
  | _ => 1

/-- A value as a constant, or in a register of its own. -/
structure Made (J : Cache) (w : CVal) (J' : Cache) : Prop where
  plain : Plain w
  pinned : Pinned w J'
  out : ∀ r, w = .reg r → r ∉ J.pins ∧ Free J' r

theorem made_const {c : Word} : Made J (.const c) J' :=
  ⟨Or.inl ⟨c, rfl⟩, pinned_const, fun _ hr => by cases hr⟩

theorem made_reg (hin : r ∈ J'.pins) (hout : r ∉ J.pins) (hfree : Free J' r) :
    Made J (.reg r) J' := by
  refine ⟨Or.inr ⟨r, rfl⟩, pinned_reg hin, fun s hs => ?_⟩
  cases hs
  exact ⟨hout, hfree⟩

theorem Made.steady (h : Made J w J') (hsteady : Steady J' J'') : Made J w J'' where
  plain := h.plain
  pinned := h.pinned.steady hsteady
  out r hr := ⟨(h.out r hr).1, hsteady.free r (h.pinned r (Or.inl hr)) (h.out r hr).2⟩

theorem Made.of_steady (h : Made J' w J'') (hsteady : Steady J J') : Made J w J'' :=
  ⟨h.plain, h.pinned, fun r hr => ⟨fun hin => (h.out r hr).1 (hsteady.pins hin), (h.out r hr).2⟩⟩

theorem shifted_returns (h : Room J (n + shiftTakes v)) (hv : Pinned v J) (hne : v ≠ .none) :
    Returns (shifted v left k) J fun w J' => Leaving J n J' ∧ Made J w J' ∧
      ((∃ c, w = .const c) ↔ ∃ c, v = .const c) := by
  have hnew : (¬ ∃ c, v = .const c) → Room J (n + 1 + regTakes v) → Returns (do
      let s ← toReg v
      let r ← scratch
      emit (.mov r s)
      emit (shiftInsn left r k)
      return .reg r) J fun w J' => Leaving J n J' ∧ Made J w J' ∧
        ((∃ c, w = .const c) ↔ ∃ c, v = .const c) := by
    intro hconst hroom
    apply Returns.bind (toReg_returns hroom hv hne)
    rintro t J₁ ⟨hleave, -⟩
    apply Returns.bind (scratch_returns hleave.room)
    rintro r J₂ ⟨hleave', hr⟩
    refine .emit_bind (.emit_bind (.pure ⟨hleave.trans hleave',
      made_reg hr.pinned (fun hin => hr.out (hleave.pins hin)) hr.free, ?_⟩))
    exact iff_of_false (by simp) hconst
  cases v with
  | const c => exact .pure ⟨.refl h, made_const, iff_of_true ⟨_, rfl⟩ ⟨_, rfl⟩⟩
  | reg s => exact hnew (by simp) h
  | neg s => exact hnew (by simp) h
  | none => exact absurd rfl hne

/-! ## Words from the cache and from memory -/

/-- A register that was just taken caches a word that is no constant. -/
theorem Leaving.bindReg (h : Leaving J n J') (ht : Taken J r J')
    (hconst : ∀ c, J'.lookup a ≠ .const c) : Leaving J n (J'.bindReg r a) := by
  have hsteady := h.toSteady.bindReg ht.out ht.free hconst
  have hpins : (J'.bindReg r a).pins = J'.pins := pins_eq fun _ => bindReg_pinned
  have hfree := (free_iff.mp ht.free).1
  have hself : ∀ b, J'.pend = some b → (J'.bindReg r a).lookup b ≠ .none ∧
      heldTakes J'.useMovbe b ((J'.bindReg r a).lookup b) ≤
        heldTakes J'.useMovbe b (J'.lookup b) := by
    intro b hb
    have hfound := h.room.held b hb
    by_cases heq : b = a
    · subst heq
      rw [lookup_bindReg_self h.room.unique (cacheable_of_lookup hfound)]
      refine ⟨by simp, ?_⟩
      cases hv : J'.lookup b with
      | none => exact absurd hv hfound
      | const c => exact absurd hv (hconst c)
      | reg s => exact Nat.le_refl _
      | neg s =>
          simp only [heldTakes]
          split_ifs <;> omega
    · rw [lookup_bindReg h.room.unique hfree heq]
      exact ⟨hfound, Nat.le_refl _⟩
  have hmovbe : (J'.bindReg r a).useMovbe = J'.useMovbe := by
    rw [hsteady.movbe, h.movbe]
  refine ⟨hsteady, ⟨⟨fun b hb => (hself b (bindReg_pend.symm.trans hb)).1, hsteady.unique⟩, ?_⟩,
    h.pend.imp bindReg_pend.trans bindReg_pend.trans⟩
  have hcard := h.room.card
  have howed : owed (J'.bindReg r a) ≤ owed J' := by
    cases hp : J'.pend with
    | none => exact Nat.le_of_eq (by rw [owed_none hp, owed_none (bindReg_pend.trans hp)])
    | some b =>
        rw [owed_some hp, owed_some (bindReg_pend.trans hp), hmovbe]
        exact (hself b hp).2
  rw [hpins]
  omega

/-- The registers for a value, of those that `get_static` pins or loads. -/
def valueTakes : CVal → ℕ
  | .const _ => 0
  | _ => 1

/-- The registers yet to be taken for a value that was looked up. -/
def missing (v : CVal) : ℕ := if v = .none then 1 else 0

theorem pinVal_returns (v : CVal) (h : Room J (n + valueTakes v)) :
    Returns (pinVal v) J fun _ J' => Leaving J (n + missing v) J' ∧ Pinned v J' ∧
      (∀ b, J'.lookup b = J.lookup b) := by
  have hself : ∀ r, r ∈ (J.pin r).pins := fun r => by simp
  have hlookup : ∀ r b, (J.pin r).lookup b = J.lookup b := fun _ _ => sameEntries_pin.lookup
  cases v with
  | none => exact .pure ⟨.refl h, pinned_none, fun _ => rfl⟩
  | const c => exact .pure ⟨.refl h, pinned_const, fun _ => rfl⟩
  | reg r => exact .modify ⟨h.pin, pinned_reg (hself r), hlookup r⟩
  | neg r => exact .modify ⟨h.pin, pinned_neg (hself r), hlookup r⟩

theorem loadWord_returns (h : Room J (n + 1)) (hnone : J.lookup a = .none) :
    Returns (loadWord a) J fun v J' => Leaving J n J' ∧ Pinned v J' ∧ ∃ r, v = .reg r := by
  apply Returns.get_bind
  apply Returns.bind (Q := fun _ J' => Leaving J (n + 1) J')
  · exact .onlyIf (fun _ => (flushPending_returns h).imp fun _ _ hflush => hflush.1)
      fun _ => .refl h
  · intro _ J₁ hleave₁
    apply Returns.bind (scratch_returns hleave₁.room)
    rintro r J₂ ⟨hleave₂, hr⟩
    apply Returns.bind (loadStatic_returns r a J₂)
    rintro _ _ rfl
    have hfades := hleave₁.fades.trans hleave₂.fades
    have hbind := hleave₂.bindReg hr fun c hc => by
      rw [(hfades.const a c).mp hc] at hnone
      cases hnone
    exact .modify_bind (.pure ⟨hleave₁.trans hbind,
      pinned_reg ((pins_eq fun _ => bindReg_pinned).ge hr.pinned), r, rfl⟩)

/-- A word that is aligned, or whose words cannot be cached or are not. -/
theorem getWord_returns (h : Room J (n + valueTakes (J.lookup a))) :
    Returns (getWord a) J fun v J' => Leaving J n J' ∧ Pinned v J' ∧
      (J.lookup a ≠ .none → v = J.lookup a) ∧ (J.lookup a = .none → ∃ r, v = .reg r) := by
  obtain ⟨J₁, hleave₁, -, hlookup₁, heq⟩ := h.cacheFind a
  apply Returns.eq_bind heq
  apply Returns.bind (pinVal_returns (J.lookup a) hleave₁.room)
  rintro _ J₂ ⟨hleave₂, hpin, hlookup₂⟩
  have hleave := hleave₁.trans hleave₂
  split_ifs with hfound
  · exact .pure ⟨hleave.mono (by omega), hpin, fun _ => rfl, fun hnone => absurd hnone hfound⟩
  · rw [not_not] at hfound
    rw [hfound] at hleave
    apply (loadWord_returns hleave.room (by rw [hlookup₂, hlookup₁, hfound])).imp
    exact fun v J' hload => ⟨hleave.trans hload.1, hload.2.1, fun hne => absurd hfound hne,
      fun _ => hload.2.2⟩

theorem getIfMissing_returns (h : Room J (n + missing v)) (hv : Pinned v J)
    (hreg : v = .none → J.lookup a = .none ∨ ∃ r, J.lookup a = .reg r) :
    Returns (getIfMissing v a) J fun w J' => Leaving J n J' ∧ Pinned w J' ∧
      (w = v ∨ v = .none ∧ ∃ r, w = .reg r) ∧ w ≠ .none := by
  rw [getIfMissing]
  split_ifs with hnone
  · rw [hnone] at h
    have hone : valueTakes (J.lookup a) ≤ 1 := by
      cases J.lookup a <;> simp [valueTakes]
    have hmissing : missing .none = 1 := rfl
    apply (getWord_returns (n := n) (h.mono (by omega))).imp
    rintro w J' ⟨hleave, hpin, hfound, hload⟩
    obtain ⟨r, hr⟩ : ∃ r, w = .reg r := by
      rcases hreg hnone with hlookup | ⟨r, hlookup⟩
      · exact hload hlookup
      · exact ⟨r, (hfound (by rw [hlookup]; simp)).trans hlookup⟩
    exact ⟨hleave, hpin, Or.inr ⟨hnone, r, hr⟩, by simp [hr]⟩
  · exact .pure ⟨.refl (h.mono (by omega)), hv, Or.inl rfl, hnone⟩

/-- The two words of an unaligned one are a constant and something else, which takes a
register for the constant meanwhile. -/
def mixed : CVal → CVal → ℕ
  | .const _, .const _ => 0
  | .const _, _ => 1
  | _, .const _ => 1
  | _, _ => 0

def BothConst (v w : CVal) : Prop := (∃ c, v = .const c) ∧ ∃ c, w = .const c

theorem putTogether_returns {lo hi : CVal}
    (h : Room J (n + mixed lo hi + shiftTakes hi + shiftTakes lo)) (hlo : Pinned lo J)
    (hhi : Pinned hi J) (hlo' : lo ≠ .none) (hhi' : hi ≠ .none) :
    Returns (putTogether lo hi k) J fun w J' => Leaving J n J' ∧ Made J w J' ∧
      ((∃ c, w = .const c) ↔ BothConst lo hi) := by
  apply Returns.bind (shifted_returns h hlo hlo')
  rintro v J₁ ⟨hleave₁, hv, hvc⟩
  apply Returns.bind (shifted_returns hleave₁.room (hhi.steady hleave₁.toSteady) hhi')
  rintro w J₂ ⟨hleave₂, hw, hwc⟩
  have hleave := hleave₁.trans hleave₂
  have hv₂ := hv.steady hleave₂.toSteady
  have hw₂ := hw.of_steady hleave₁.toSteady
  have hone : ∀ {r : Reg} {x : CVal} {P : Prop}, mixed lo hi = 1 → Made J (.reg r) J₂ → Plain x →
      Pinned x J₂ → ¬ P → Returns (do
        orVal r x
        return .reg r) J₂ fun w J' => Leaving J n J' ∧ Made J w J' ∧ ((∃ c, w = .const c) ↔ P) := by
    intro r x P hmixed hr hplain hx hP
    have hne : x ≠ .none := by
      obtain ⟨c, rfl⟩ | ⟨s, rfl⟩ := hplain <;> simp
    rw [hmixed] at hleave
    apply Returns.bind (orVal_returns hleave.room hx hne)
    intro _ J₃ hleave₃
    exact .pure ⟨(hleave.trans hleave₃).mono (by omega), hr.steady hleave₃.toSteady,
      iff_of_false (by simp) hP⟩
  obtain ⟨x, rfl⟩ | ⟨r, rfl⟩ := hv.plain
  · obtain ⟨c, rfl⟩ := hvc.mp ⟨x, rfl⟩
    obtain ⟨y, rfl⟩ | ⟨s, rfl⟩ := hw.plain
    · exact .pure ⟨hleave.mono (by omega), made_const,
        iff_of_true ⟨_, rfl⟩ ⟨⟨_, rfl⟩, hwc.mp ⟨y, rfl⟩⟩⟩
    · have hnot : ¬ ∃ c, hi = .const c := fun hc => by simpa using hwc.mpr hc
      refine hone ?_ hw₂ hv₂.plain hv₂.pinned fun hboth => hnot hboth.2
      cases hi with
      | const d => exact absurd ⟨d, rfl⟩ hnot
      | _ => rfl
  · have hnot : ¬ ∃ c, lo = .const c := fun hc => by simpa using hvc.mpr hc
    obtain ⟨y, rfl⟩ | ⟨s, rfl⟩ := hw.plain
    · obtain ⟨d, rfl⟩ := hwc.mp ⟨y, rfl⟩
      refine hone ?_ hv₂ hw₂.plain hw₂.pinned fun hboth => hnot hboth.1
      cases lo with
      | const c => exact absurd ⟨c, rfl⟩ hnot
      | _ => rfl
    · apply Returns.bind (orReg_returns r s J₂)
      rintro _ _ rfl
      exact .pure ⟨hleave.mono (by omega), hv₂, iff_of_false (by simp) fun hboth => hnot hboth.1⟩

/-- The registers for an unaligned word, by how the two that it spans are known. -/
def pairTakes (v w : CVal) : ℕ :=
  valueTakes v + shiftTakes v + (valueTakes w + shiftTakes w) + mixed v w

theorem kept_cases {v' : CVal} (h : v' = v ∨ v = .none ∧ ∃ r, v' = .reg r) :
    shiftTakes v' = shiftTakes v ∧ ((∃ c, v' = .const c) ↔ ∃ c, v = .const c) := by
  rcases h with rfl | ⟨rfl, r, rfl⟩
  · exact ⟨rfl, Iff.rfl⟩
  · exact ⟨rfl, iff_of_false (by simp) (by simp)⟩

theorem mixed_congr {v' w' : CVal} (hv : (∃ c, v' = .const c) ↔ ∃ c, v = .const c)
    (hw : (∃ c, w' = .const c) ↔ ∃ c, w = .const c) : mixed v' w' = mixed v w := by
  cases v <;> cases w <;> cases v' <;> cases w' <;> simp_all [mixed]

theorem getSpanned_returns {lo : Word}
    (h : Room J (n + pairTakes (J.lookup lo) (J.lookup (lo + 8)))) (hna : J.lookup a = .none) :
    Returns (getSpanned a lo) J fun v J' => Leaving J n J' ∧ Pinned v J' ∧
      ((∃ c, v = .const c) ↔ BothConst (J.lookup lo) (J.lookup (lo + 8))) ∧
      (Made J v J' ∨ Leaving J (n + 1) J' ∧ ∃ r, v = .reg r) := by
  obtain ⟨J₁, hleave₁, -, hlookup₁, heq₁⟩ := h.cacheFind lo
  apply Returns.eq_bind heq₁
  obtain ⟨J₂, hleave₂, -, hlookup₂, heq₂⟩ := hleave₁.room.cacheFind (lo + 8)
  have hleave := hleave₁.trans hleave₂
  apply Returns.eq_bind heq₂
  have hlo : J₂.lookup lo = J.lookup lo := (hlookup₂ lo).trans (hlookup₁ lo)
  have hhi : J₂.lookup (lo + 8) = J.lookup (lo + 8) := (hlookup₂ _).trans (hlookup₁ _)
  rw [hlookup₁ (lo + 8)]
  generalize hv : J.lookup lo = v at *
  generalize hw : J.lookup (lo + 8) = w at *
  unfold pairTakes at hleave
  split_ifs with hfound
  · have hmissing : missing v ≤ 1 := by
      unfold missing
      split_ifs <;> omega
    apply Returns.bind (pinVal_returns (n := n + shiftTakes v + (valueTakes w + shiftTakes w) +
      mixed v w) v (hleave.room.mono (by omega)))
    rintro _ J₃ ⟨hleave₃, hv₃, hlookup₃⟩
    apply Returns.bind (pinVal_returns (n := n + shiftTakes v + shiftTakes w + mixed v w +
      missing v) w (hleave₃.room.mono (by omega)))
    rintro _ J₄ ⟨hleave₄, hw₄, hlookup₄⟩
    apply Returns.bind (getIfMissing_returns (n := n + shiftTakes v + shiftTakes w + mixed v w +
      missing w) (v := v) (a := lo) (hleave₄.room.mono (by omega)) (hv₃.steady hleave₄.toSteady)
      fun hnone => Or.inl (by rw [hlookup₄, hlookup₃, hlo, hnone]))
    rintro v' J₅ ⟨hleave₅, hv₅, hv', hv'ne⟩
    have hkept := fun hnone : w = .none => by
      have hfades := hleave₅.fades
      have hhi₄ : J₄.lookup (lo + 8) = .none := by rw [hlookup₄, hlookup₃, hhi, hnone]
      have hor : J₅.lookup (lo + 8) = .none ∨ ∃ r, J₅.lookup (lo + 8) = .reg r := by
        cases hx : J₅.lookup (lo + 8) with
        | none => exact Or.inl rfl
        | reg r => exact Or.inr ⟨r, rfl⟩
        | const c =>
            rw [(hfades.const _ c).mp hx] at hhi₄
            cases hhi₄
        | neg r =>
            rw [hfades.neg _ r hx] at hhi₄
            cases hhi₄
      exact hor
    apply Returns.bind (getIfMissing_returns (n := n + shiftTakes v + shiftTakes w + mixed v w)
      (v := w) (a := lo + 8) (hleave₅.room.mono (by omega)) (hw₄.steady hleave₅.toSteady) hkept)
    rintro w' J₆ ⟨hleave₆, hw₆, hw', hw'ne⟩
    obtain ⟨hshift, hconst⟩ := kept_cases hv'
    obtain ⟨hshift', hconst'⟩ := kept_cases hw'
    have hleave' := (((hleave.trans hleave₃).trans hleave₄).trans hleave₅).trans hleave₆
    have hroom : Room J₆ (n + mixed v' w' + shiftTakes w' + shiftTakes v') := by
      rw [hshift, hshift', mixed_congr hconst hconst']
      exact hleave₆.room.mono (by omega)
    apply (putTogether_returns hroom (hv₅.steady hleave₆.toSteady) hw₆ hv'ne hw'ne).imp
    rintro x J₇ ⟨hleave₇, hmade, hx⟩
    exact ⟨hleave'.trans hleave₇, hmade.pinned, hx.trans (and_congr hconst hconst'),
      Or.inl (hmade.of_steady hleave'.toSteady)⟩
  · simp only [ne_eq, not_or, not_not] at hfound
    obtain ⟨rfl, rfl⟩ := hfound
    have hfour : n + (valueTakes .none + shiftTakes .none + (valueTakes .none + shiftTakes .none) +
      mixed .none .none) = n + 4 := rfl
    rw [hfour] at hleave
    have hnone : J₂.lookup a = .none := by rw [hlookup₂, hlookup₁, hna]
    have hroom : Room J₂ (n + 1 + valueTakes (J₂.lookup a)) :=
      hleave.room.mono (by rw [hnone]; simp [valueTakes])
    apply (getWord_returns hroom).imp
    rintro x J₃ ⟨hleave₃, hpin, -, hload⟩
    obtain ⟨r, rfl⟩ := hload hnone
    have hlast := hleave.trans hleave₃
    exact ⟨hlast.mono (by omega), hpin, iff_of_false (by simp) (by rintro ⟨⟨c, hc⟩, -⟩; cases hc),
      Or.inr ⟨hlast, r, rfl⟩⟩

theorem isConst_iff : CVal.isConst v = true ↔ ∃ c, v = .const c := by
  cases v <;> simp [CVal.isConst]

/-- The words that an unaligned address spans are both constants. -/
def constPair (J : Cache) (a : Word) : Bool :=
  CVal.isConst (J.lookup (a &&& ~~~7#64)) && CVal.isConst (J.lookup ((a &&& ~~~7#64) + 8))

theorem constPair_iff :
    constPair J a = true ↔
      BothConst (J.lookup (a &&& ~~~7#64)) (J.lookup ((a &&& ~~~7#64) + 8)) := by
  rw [constPair, Bool.and_eq_true, isConst_iff, isConst_iff]
  rfl

/-- The registers for the value at a static address. -/
def staticTakes (J : Cache) (a : Word) : ℕ :=
  if spansCacheable a then
    pairTakes (J.lookup (a &&& ~~~7#64)) (J.lookup ((a &&& ~~~7#64) + 8))
  else valueTakes (J.lookup a)

/-- A register for the value where there is to be one. -/
def staticReg (J : Cache) (a : Word) : ℕ :=
  if spansCacheable a then if constPair J a then 1 else 0
  else regTakes (J.lookup a)

/-- A register for a result in its place. -/
def staticDest (J : Cache) (a : Word) : ℕ :=
  if spansCacheable a ∧ constPair J a = false then 0 else 1

theorem lookup_of_not_aligned (ha : a &&& 7 ≠ 0) : J.lookup a = .none := by
  rw [Cache.lookup, cacheable, decide_eq_false ha]
  rfl

/-- The registers left over, or the value's own for the result. -/
def Placed (J : Cache) (n : ℕ) (v : CVal) (J' : Cache) : Prop :=
  (∃ r, v = .reg r ∧ Free J' r) ∨ Leaving J (n + 1) J'

theorem getStatic_returns (h : Room J (n + staticTakes J a)) :
    Returns (getStatic a) J fun v J' => Leaving J n J' ∧ Pinned v J' ∧ v ≠ .none ∧
      regTakes v ≤ staticReg J a ∧
      (spansCacheable a → ((∃ c, v = .const c) ↔ constPair J a = true) ∧
        (constPair J a = false → Placed J n v J')) ∧
      (¬ spansCacheable a → ∀ c, v = .const c → J.lookup a = .const c) := by
  rw [getStatic]
  unfold staticTakes at h
  unfold staticReg
  split_ifs at h ⊢ with hspan hpair
  · apply (getSpanned_returns h (lookup_of_not_aligned hspan.1)).imp
    rintro v J' ⟨hleave, hpin, hconst, -⟩
    obtain ⟨c, rfl⟩ := hconst.mpr (constPair_iff.mp hpair)
    exact ⟨hleave, hpin, by simp, Nat.le_refl _, fun _ => ⟨iff_of_true ⟨c, rfl⟩ hpair,
      fun hnot => absurd hpair (by simp [hnot])⟩, fun hnot => absurd hspan hnot⟩
  · apply (getSpanned_returns h (lookup_of_not_aligned hspan.1)).imp
    rintro v J' ⟨hleave, hpin, hconst, hplaced⟩
    have hnot : ¬ ∃ c, v = .const c := fun hc => hpair (constPair_iff.mpr (hconst.mp hc))
    have hreg : ∃ r, v = .reg r ∧ (Free J' r ∨ Leaving J (n + 1) J') := by
      rcases hplaced with hmade | ⟨hleave', r, rfl⟩
      · obtain ⟨r, rfl⟩ := hmade.plain.resolve_left hnot
        exact ⟨r, rfl, Or.inl (hmade.out r rfl).2⟩
      · exact ⟨r, rfl, Or.inr hleave'⟩
    obtain ⟨r, rfl, hfree⟩ := hreg
    exact ⟨hleave, hpin, by simp, Nat.le_refl _, fun _ => ⟨iff_of_false (by simp) hpair,
      fun _ => hfree.imp (fun hfree => ⟨r, rfl, hfree⟩) id⟩, fun hspan' => absurd hspan hspan'⟩
  · apply (getWord_returns h).imp
    rintro v J' ⟨hleave, hpin, hfound, hload⟩
    by_cases hnone : J.lookup a = .none
    · obtain ⟨r, rfl⟩ := hload hnone
      exact ⟨hleave, hpin, by simp, Nat.zero_le _, fun hspan' => absurd hspan' hspan,
        fun _ c hc => by cases hc⟩
    · obtain rfl := hfound hnone
      exact ⟨hleave, hpin, hnone, Nat.le_refl _, fun hspan' => absurd hspan' hspan,
        fun _ c hc => hc⟩

end Translator
end SubleqEmu
